import Parachuter.Control
import Parachuter.Pending
/-!
# The sender behind its socket (`sender/mod.rs`, `error.rs`, `SenderRuntime::status`)

`ControlAdapter.handle` is the sender's handler: each request under the runtime's lock, so in one step.  The main loop's
jobs come between the requests as `SenderMove.op`; what the handler reads of the world (the file system, the working
directory, the clock) changes by `SenderMove.world`.  Requests are answered after a failed or endless send too, when the
daemon has ended or holds its lock for good: its runs are among those here.  The texts of errors from outside are a parameter.
-/
namespace Parachuter

open Blob (Bytes)

/-- What the operating system, SQLite and the TOML parser say of their errors, and how a holding file's path reads. -/
structure ForeignTexts where
  io     : IoError → String
  sqlite : String
  toml   : String
  held   : HoldingFile → String

/-- The `Display` of `error.rs`. -/
def Error.display (texts : ForeignTexts) : Error → String
  | .io e                   => "io error: " ++ texts.io e
  | .sqlite                 => "sqlite error: " ++ texts.sqlite
  | .toml                   => "toml error: " ++ texts.toml
  | .notFound (.text path)  => "path not found: " ++ String.ofList path
  | .notFound (.held f)     => "path not found: " ++ texts.held f
  | .badPacket reason       => "malformed packet: " ++ reason
  | .badManifest reason     => "manifest corrupt: " ++ reason
  | .badChunkSize size      => "invalid chunk size: " ++ toString size
  | .badConfig reason       => "invalid config: " ++ reason
  | .outOfRange index total => "chunk index " ++ toString index ++ " out of range (have " ++ toString total ++ ")"

namespace SenderRuntime

def status (rt : SenderRuntime) : SenderStatus where
  state := rt.state
  activeLink := rt.currentLink.1
  linkIp := rt.currentLink.2.1
  linkPort := rt.currentLink.2.2.1
  chunkSize := rt.currentChunkSize
  maxKbps := rt.currentLink.2.2.2
  currentFileId := (rt.queue.items.head?.map WorkItem.fileId).getD 0
  queueDepth := rt.queue.depth
  pending := rt.queue.snapshot
  revision := rt.queue.revision

end SenderRuntime

/-- The sender as its handler sees it. -/
structure SenderDaemon where
  rt       : SenderRuntime
  metadata : Text → Except IoError FileMeta
  cwd      : Option Text
  utc      : DateTime

/-- What happens to the sender between requests. -/
inductive SenderMove
  | op (o : SenderOp)
  | world (metadata : Text → Except IoError FileMeta) (cwd : Option Text) (utc : DateTime)

def SenderMove.apply (crc : Bytes → UInt32) (d : SenderDaemon) : SenderMove → SenderDaemon
  | .op o                     => { d with rt := o.apply crc d.rt }
  | .world metadata cwd utc   => { d with metadata := metadata, cwd := cwd, utc := utc }

namespace ControlAdapter

/-- The response to what an operation of the runtime returned. -/
def respond {α : Type} (texts : ForeignTexts) (d : SenderDaemon) (ok : α → Response) (err : String → Response) :
    Except Error α × SenderRuntime → Response × SenderDaemon
  | (.ok a, rt)    => (ok a, { d with rt := rt })
  | (.error e, rt) => (err (e.display texts), { d with rt := rt })

def handle (texts : ForeignTexts) (d : SenderDaemon) : Request → Response × SenderDaemon
  | .ping                                       => (.pong "sender" CARGO_PKG_VERSION, d)
  | .senderStatus                               => (.senderStatus d.rt.status, d)
  | .senderConfigure o                          => respond texts d (fun _ => .ok) .badRequest (d.rt.applyOverride o)
  | .senderSetState new                         => (.ok, { d with rt := d.rt.setState new })
  | .senderEnqueue fileId start count interrupt =>
    respond texts d (fun _ => .ok) .error (d.rt.enqueue fileId start count interrupt d.utc)
  | .senderSubmit path interrupt                =>
    respond texts d .submitted .error (d.rt.submit d.metadata d.cwd path interrupt d.utc)
  | .senderResendName fileId                    => respond texts d (fun _ => .ok) .error (d.rt.resendName fileId)
  | .senderFlush                                => (.ok, { d with rt := d.rt.flush })
  | .receiverStatus | .cleanerStatus | .cleanerRunNow | .cleanerReconcileNow => (.unsupported, d)

end ControlAdapter

/-! ## A daemon's history is a run of the sender -/

/-- The operation a request is, if it is one. -/
def Request.op? (d : SenderDaemon) : Request → Option SenderOp
  | .senderConfigure o                          => some (.applyOverride o)
  | .senderSetState new                         => some (.setState new)
  | .senderEnqueue fileId start count interrupt => some (.enqueue fileId start count interrupt d.utc)
  | .senderSubmit path interrupt                => some (.submit d.metadata d.cwd path interrupt d.utc)
  | .senderResendName fileId                    => some (.resendName fileId)
  | .senderFlush                                => some .flush
  | .ping | .senderStatus | .receiverStatus | .cleanerStatus | .cleanerRunNow | .cleanerReconcileNow => none

namespace SenderDaemon

abbrev Entry := Serial.Entry Nat Request Response SenderMove

/-- The operation an entry of the history is, if it is one. -/
def op? (d : SenderDaemon) : Entry → Option SenderOp
  | .call _ req _         => req.op? d
  | .change (.op o)       => some o
  | .change (.world ..)   => none

variable (crc : Bytes → UInt32) (texts : ForeignTexts)

/-- The operations of a history, in order. -/
def trace : SenderDaemon → List Entry → List SenderOp
  | _, []     => []
  | d, e :: h => (d.op? e).toList ++ trace (e.apply (ControlAdapter.handle texts) (SenderMove.apply crc) d) h

end SenderDaemon

namespace ControlAdapter

variable {crc : Bytes → UInt32} {texts : ForeignTexts} {d : SenderDaemon}

@[simp] theorem respond_rt {α : Type} (ok : α → Response) (err : String → Response) (r : Except Error α × SenderRuntime) :
    (respond texts d ok err r).2.rt = r.2 := by
  obtain ⟨r, rt⟩ := r
  cases r <;> rfl

/-- **A request does to the runtime what its operation does**, and nothing if it is none. -/
theorem handle_rt (req : Request) : (handle texts d req).2.rt = SenderOp.run crc d.rt (req.op? d).toList := by
  cases req <;> simp [handle, Request.op?, SenderOp.run, SenderOp.apply]

/-- What an override that is refused has not touched. -/
theorem applyOverride_error {rt rt' : SenderRuntime} {o : LinkOverride} {e : Error} (h : rt.applyOverride o = (.error e, rt')) :
    rt'.queue = rt.queue ∧ rt'.ledger = rt.ledger ∧ rt'.state = rt.state := by
  unfold SenderRuntime.applyOverride at h
  split at h
  · cases h
    exact ⟨rfl, rfl, rfl⟩
  dsimp only at h
  split at h
  · cases h
    exact ⟨rfl, rfl, rfl⟩
  · cases h

theorem enqueue_error {rt rt' : SenderRuntime} {id : FileId} {start : Int32} {count : UInt32} {interrupt : Bool}
    {utc : DateTime} {e : Error} (h : rt.enqueue id start count interrupt utc = (.error e, rt')) : rt' = rt := by
  unfold SenderRuntime.enqueue at h
  split at h
  · cases h
    rfl
  dsimp only at h
  split at h
  · cases h
  split at h
  · cases h
    rfl
  · cases h

theorem registerAndPush_error {rt rt' : SenderRuntime} {name : Text} {size : UInt64} {created : DateTime}
    {interrupt : Bool} {utc : DateTime} {e : Error}
    (h : rt.registerAndPush name size created interrupt utc = (.error e, rt')) : rt' = rt := by
  unfold SenderRuntime.registerAndPush at h
  dsimp only at h
  split at h
  · cases h
    rfl
  · cases h

theorem submit_error {rt rt' : SenderRuntime} {metadata : Text → Except IoError FileMeta} {cwd : Option Text} {path : Text}
    {interrupt : Bool} {utc : DateTime} {e : Error}
    (h : rt.submit metadata cwd path interrupt utc = (.error e, rt')) : rt' = rt := by
  unfold SenderRuntime.submit at h
  split at h
  · cases h
    rfl
  · cases h
    rfl
  split at h
  · cases h
    rfl
  · exact registerAndPush_error h

theorem resendName_error {rt rt' : SenderRuntime} {id : FileId} {e : Error} (h : rt.resendName id = (.error e, rt')) :
    rt' = rt := by
  unfold SenderRuntime.resendName at h
  split at h
  · cases h
    rfl
  · cases h

/-- The answers that say something was done. -/
def Done : Response → Prop
  | .ok          => True
  | .submitted _ => True
  | _            => False

/-- What a response without effect leaves alone. -/
structure Untouched (rt rt' : SenderRuntime) : Prop where
  queue  : rt'.queue = rt.queue
  ledger : rt'.ledger = rt.ledger
  state  : rt'.state = rt.state

theorem Untouched.refl (rt : SenderRuntime) : Untouched rt rt := ⟨rfl, rfl, rfl⟩

theorem respond_untouched {α : Type} {ok : α → Response} {err : String → Response} {r : Except Error α × SenderRuntime}
    (hok : ∀ a, Done (ok a)) (herr : ∀ e rt', r = (.error e, rt') → Untouched d.rt rt')
    (h : ¬ Done (respond texts d ok err r).1) : Untouched d.rt (respond texts d ok err r).2.rt := by
  obtain ⟨r, rt'⟩ := r
  cases r with
  | ok a => exact absurd (hok a) h
  | error e => exact herr e rt' rfl

/-- **What is not answered as done was not done.** -/
theorem handle_untouched (req : Request) (h : ¬ Done (handle texts d req).1) : Untouched d.rt (handle texts d req).2.rt := by
  cases req with
  | senderConfigure o =>
    refine respond_untouched (fun _ => trivial) (fun e rt' he => ?_) h
    obtain ⟨hq, hl, hs⟩ := applyOverride_error he
    exact ⟨hq, hl, hs⟩
  | senderEnqueue id start count interrupt =>
    refine respond_untouched (fun _ => trivial) (fun e rt' he => ?_) h
    rw [enqueue_error he]
    exact .refl _
  | senderSubmit path interrupt =>
    refine respond_untouched (fun _ => trivial) (fun e rt' he => ?_) h
    rw [submit_error he]
    exact .refl _
  | senderResendName id =>
    refine respond_untouched (fun _ => trivial) (fun e rt' he => ?_) h
    rw [resendName_error he]
    exact .refl _
  | senderSetState new => exact absurd trivial h
  | senderFlush => exact absurd trivial h
  | ping => exact .refl _
  | senderStatus => exact .refl _
  | receiverStatus => exact .refl _
  | cleanerStatus => exact .refl _
  | cleanerRunNow => exact .refl _
  | cleanerReconcileNow => exact .refl _

theorem respond_fst {α : Type} {ok : α → Response} {err : String → Response} (r : Except Error α × SenderRuntime) :
    (∃ a, (respond texts d ok err r).1 = ok a) ∨ ∃ e, (respond texts d ok err r).1 = err e := by
  obtain ⟨r, rt'⟩ := r
  cases r with
  | ok a => exact .inl ⟨a, rfl⟩
  | error e => exact .inr ⟨_, rfl⟩

/-- **A status is answered to the request for it alone**, and is the runtime's. -/
theorem handle_status {req : Request} {status : SenderStatus} (h : (handle texts d req).1 = .senderStatus status) :
    (handle texts d req).2 = d ∧ status = d.rt.status := by
  cases req with
  | senderStatus =>
    cases h
    exact ⟨rfl, rfl⟩
  | senderConfigure o =>
    rcases @respond_fst texts d _ (fun _ => .ok) .badRequest (d.rt.applyOverride o) with
      ⟨a, ha⟩ | ⟨e, he⟩
    · cases ha.symm.trans h
    · cases he.symm.trans h
  | senderEnqueue id start count interrupt =>
    rcases @respond_fst texts d _ (fun _ => .ok) .error
      (d.rt.enqueue id start count interrupt d.utc) with ⟨a, ha⟩ | ⟨e, he⟩
    · cases ha.symm.trans h
    · cases he.symm.trans h
  | senderSubmit path interrupt =>
    rcases @respond_fst texts d _ .submitted .error
      (d.rt.submit d.metadata d.cwd path interrupt d.utc) with ⟨a, ha⟩ | ⟨e, he⟩
    · cases ha.symm.trans h
    · cases he.symm.trans h
  | senderResendName id =>
    rcases @respond_fst texts d _ (fun _ => .ok) .error (d.rt.resendName id) with
      ⟨a, ha⟩ | ⟨e, he⟩
    · cases ha.symm.trans h
    · cases he.symm.trans h
  | ping => cases h
  | senderSetState new => cases h
  | senderFlush => cases h
  | receiverStatus => cases h
  | cleanerStatus => cases h
  | cleanerRunNow => cases h
  | cleanerReconcileNow => cases h

end ControlAdapter

/-! ## The queue's revision -/

/-- `n` changes lie between two states of the queue; if none, it is the same. -/
structure PacketQueue.Changes (n : Nat) (q q' : PacketQueue) : Prop where
  revision : q'.revision = q.revision + UInt64.ofNat n
  same     : n = 0 → q'.items = q.items

namespace PacketQueue

variable {q q' q'' : PacketQueue}

theorem Changes.refl (q : PacketQueue) : Changes 0 q q := ⟨by simp, fun _ => rfl⟩

theorem Changes.trans {n m : Nat} (h : Changes n q q') (h' : Changes m q' q'') : Changes (n + m) q q'' := by
  refine ⟨?_, fun h0 => ?_⟩
  · rw [h'.revision, h.revision, UInt64.ofNat_add, UInt64.add_assoc]
  · rw [h'.same (by omega), h.same (by omega)]

theorem changes_pushBack (q : PacketQueue) (item : WorkItem) : Changes 1 q (q.pushBack item) :=
  ⟨rfl, fun h => absurd h Nat.one_ne_zero⟩

theorem changes_pushFront (q : PacketQueue) (item : WorkItem) : Changes 1 q (q.pushFront item) :=
  ⟨rfl, fun h => absurd h Nat.one_ne_zero⟩

theorem changes_clear (q : PacketQueue) : ∃ n, n ≤ 2 ∧ Changes n q q.clear := by
  unfold clear
  cases hq : q.items with
  | nil => exact ⟨0, Nat.zero_le 2, .refl q⟩
  | cons item items => exact ⟨1, by decide, rfl, fun h => absurd h Nat.one_ne_zero⟩

theorem changes_popFront {item : WorkItem} {items : List WorkItem} (q : PacketQueue) (_ : q.items = item :: items) :
    Changes 1 q ⟨items, q.revision + 1⟩ := ⟨rfl, fun h => absurd h Nat.one_ne_zero⟩

/-- **The same revision, after fewer changes than it has values**: nothing happened. -/
theorem Changes.eq_zero {n : Nat} (h : Changes n q q') (hfew : n < 2 ^ 64) (heq : q'.revision = q.revision) : n = 0 := by
  have hn : UInt64.ofNat n = 0 := by
    have h0 := h.revision
    rw [heq] at h0
    exact (UInt64.add_eq_left.1 h0.symm)
  have htoNat := congrArg UInt64.toNat hn
  rw [UInt64.toNat_ofNat', Nat.mod_eq_of_lt hfew] at htoNat
  exact htoNat

end PacketQueue

namespace SenderOp

open PacketQueue (Changes)

variable {crc : Bytes → UInt32} {rt : SenderRuntime}

theorem changes_pushFullFile (rt : SenderRuntime) (id : FileId) (name : Text) (total : UInt32) (interrupt : Bool)
    (utc : DateTime) : Changes 2 rt.queue (rt.pushFullFile id name total interrupt utc).queue := by
  cases interrupt with
  | true => exact (PacketQueue.changes_pushFront _ _).trans (PacketQueue.changes_pushFront _ _)
  | false => exact (PacketQueue.changes_pushBack _ _).trans (PacketQueue.changes_pushBack _ _)

theorem changes_registerAndPush (rt : SenderRuntime) (name : Text) (size : UInt64) (created : DateTime) (interrupt : Bool)
    (utc : DateTime) : ∃ n, n ≤ 2 ∧ Changes n rt.queue (rt.registerAndPush name size created interrupt utc).2.queue := by
  unfold SenderRuntime.registerAndPush
  dsimp only
  split
  · exact ⟨0, Nat.zero_le 2, .refl _⟩
  · exact ⟨2, Nat.le_refl 2, changes_pushFullFile _ _ _ _ _ utc⟩

/-- A chunk sent takes its item off the queue, and may put what is left of it back. -/
theorem changes_sendRange (crc : Bytes → UInt32) (payload : Payload) (packet : Chunker → UInt32 → Except Error Packet)
    (item : RequestedRange → WorkItem) (rt : SenderRuntime) (id : FileId) (range : RequestedRange) :
    ∃ n, n ≤ 1 ∧ Changes n rt.queue (SenderRuntime.sendRange crc payload packet item rt id range).rt.queue := by
  unfold SenderRuntime.sendRange
  split
  · exact ⟨0, Nat.zero_le 1, .refl _⟩
  split
  · exact ⟨0, Nat.zero_le 1, .refl _⟩
  · exact ⟨0, Nat.zero_le 1, .refl _⟩
  split
  · exact ⟨0, Nat.zero_le 1, .refl _⟩
  rename_i pkt _
  obtain ⟨rl, heq⟩ := SenderRuntime.emit_rt rt payload (pkt.encode crc)
  dsimp only
  split
  · rw [heq]
    exact ⟨0, Nat.zero_le 1, .refl _⟩
  · split
    · dsimp only
      rw [heq]
      exact ⟨1, Nat.le_refl 1, PacketQueue.changes_pushFront _ _⟩
    · rw [heq]
      exact ⟨0, Nat.zero_le 1, .refl _⟩

theorem changes_sendItem (crc : Bytes → UInt32) (payload : Payload) (rt : SenderRuntime) (item : WorkItem) :
    ∃ n, n ≤ 1 ∧ Changes n rt.queue (SenderRuntime.sendItem crc payload rt item).rt.queue := by
  cases item with
  | manifest id name =>
    refine ⟨0, Nat.zero_le 1, ?_⟩
    simp only [SenderRuntime.sendItem, SenderRuntime.sendManifest]
    split
    · exact .refl _
    · obtain ⟨rl, heq⟩ := SenderRuntime.emit_rt rt payload _
      rw [heq]
      exact .refl _
  | data id range => exact changes_sendRange ..
  | retransmit id range => exact changes_sendRange ..

/-- **Every operation counts its changes of the queue**, two at most. -/
theorem changes_apply (crc : Bytes → UInt32) (rt : SenderRuntime) (op : SenderOp) :
    ∃ n, n ≤ 2 ∧ Changes n rt.queue (op.apply crc rt).queue := by
  cases op with
  | submit metadata cwd path interrupt utc =>
    simp only [SenderOp.apply, SenderRuntime.submit]
    split
    · exact ⟨0, Nat.zero_le 2, .refl _⟩
    · exact ⟨0, Nat.zero_le 2, .refl _⟩
    · split
      · exact ⟨0, Nat.zero_le 2, .refl _⟩
      · exact changes_registerAndPush ..
  | enqueue id start count interrupt utc =>
    simp only [SenderOp.apply, SenderRuntime.enqueue]
    split
    · exact ⟨0, Nat.zero_le 2, .refl _⟩
    · split
      · exact ⟨2, Nat.le_refl 2, changes_pushFullFile _ _ _ _ _ _⟩
      · split
        · exact ⟨0, Nat.zero_le 2, .refl _⟩
        · dsimp only
          split
          · exact ⟨1, by decide, PacketQueue.changes_pushFront _ _⟩
          · exact ⟨1, by decide, PacketQueue.changes_pushBack _ _⟩
  | resendName id =>
    simp only [SenderOp.apply, SenderRuntime.resendName]
    split
    · exact ⟨0, Nat.zero_le 2, .refl _⟩
    · exact ⟨1, by decide, PacketQueue.changes_pushFront _ _⟩
  | scanForWork view utc =>
    simp only [SenderOp.apply, SenderRuntime.scanForWork]
    split
    · exact ⟨0, Nat.zero_le 2, .refl _⟩
    · exact ⟨0, Nat.zero_le 2, .refl _⟩
    · rename_i c hc
      obtain ⟨n, hn, h⟩ := changes_registerAndPush rt c.path c.size c.createdAt false utc
      refine ⟨n, hn, ?_⟩
      split
      · rename_i hpush
        rwa [hpush] at h
      · rename_i hpush
        rwa [hpush] at h
  | applyOverride o =>
    refine ⟨0, Nat.zero_le 2, ?_⟩
    simp only [SenderOp.apply, SenderRuntime.applyOverride]
    split
    · exact .refl _
    · split <;> exact .refl _
  | setState new =>
    cases new with
    | auto => exact ⟨0, Nat.zero_le 2, .refl _⟩
    | manual => exact PacketQueue.changes_clear _
    | paused => exact PacketQueue.changes_clear _
    | debug => exact PacketQueue.changes_clear _
  | flush => exact PacketQueue.changes_clear _
  | sendNext payload =>
    rcases SenderRuntime.sendNext_cases crc payload rt with heq | ⟨item, items, -, hq, heq⟩
    · refine ⟨0, Nat.zero_le 2, ?_⟩
      simp only [SenderOp.apply, heq]
      exact .refl _
    · obtain ⟨n, hn, h⟩ := changes_sendItem crc payload (rt.taking ⟨items, rt.queue.revision + 1⟩) item
      refine ⟨1 + n, by omega, ?_⟩
      simp only [SenderOp.apply, heq]
      exact (PacketQueue.changes_popFront rt.queue hq).trans h
  | reload cfg => exact ⟨0, Nat.zero_le 2, .refl _⟩
  | stamp lastRecheck lastStatusDump => exact ⟨0, Nat.zero_le 2, .refl _⟩

theorem changes_run (crc : Bytes → UInt32) : ∀ (ops : List SenderOp) (rt : SenderRuntime),
    ∃ n, n ≤ 2 * ops.length ∧ Changes n rt.queue (run crc rt ops).queue
  | [], rt         => ⟨0, Nat.le_refl 0, .refl _⟩
  | op :: ops, rt => by
    obtain ⟨n, hn, h⟩ := changes_apply crc rt op
    obtain ⟨m, hm, h'⟩ := changes_run crc ops (op.apply crc rt)
    refine ⟨n + m, ?_, h.trans h'⟩
    rw [List.length_cons]
    omega

end SenderOp

namespace SenderDaemon

open ControlAdapter (handle Done Untouched)

variable {crc : Bytes → UInt32} {texts : ForeignTexts}

/-- An entry does to the runtime what its operation does. -/
theorem apply_rt (d : SenderDaemon) (e : Entry) :
    (e.apply (handle texts) (SenderMove.apply crc) d).rt = SenderOp.run crc d.rt (d.op? e).toList := by
  cases e with
  | call k req resp => exact ControlAdapter.handle_rt req
  | change m => cases m <;> rfl

/-- **A history does to the runtime what its operations do**, one after another. -/
theorem replay_rt : ∀ (d : SenderDaemon) (h : List Entry),
    (Serial.replay (handle texts) (SenderMove.apply crc) d h).rt = SenderOp.run crc d.rt (d.trace crc texts h)
  | d, []     => rfl
  | d, e :: h => by
    rw [trace, SenderOp.run, List.foldl_append]
    show (Serial.replay (handle texts) (SenderMove.apply crc) (e.apply (handle texts) (SenderMove.apply crc) d) h).rt = _
    rw [replay_rt, apply_rt]
    rfl

/-- A call after a history leaves the runtime its handler leaves. -/
theorem run_trace_call (crc : Bytes → UInt32) (texts : ForeignTexts) (d : SenderDaemon) (pre : List Entry) (k : Nat)
    (req : Request) (resp : Response) : SenderOp.run crc d.rt (d.trace crc texts (pre ++ [.call k req resp])) =
      (handle texts (Serial.replay (handle texts) (SenderMove.apply crc) d pre) req).2.rt := by
  rw [← replay_rt, Serial.replay_append]
  rfl

theorem length_trace : ∀ (d : SenderDaemon) (h : List Entry), (d.trace crc texts h).length ≤ h.length
  | _, []     => Nat.le_refl 0
  | d, e :: h => by
    have ih := length_trace (e.apply (handle texts) (SenderMove.apply crc) d) h
    have hone : (d.op? e).toList.length ≤ 1 := by cases d.op? e <;> simp
    rw [trace, List.length_append, List.length_cons]
    omega

/-- The changes of the queue over a stretch of the history. -/
theorem changes_replay (d : SenderDaemon) (h : List Entry) : ∃ n, n ≤ 2 * h.length ∧
    PacketQueue.Changes n d.rt.queue (Serial.replay (handle texts) (SenderMove.apply crc) d h).rt.queue := by
  obtain ⟨n, hn, hc⟩ := SenderOp.changes_run crc (d.trace crc texts h) d.rt
  have hlen := @length_trace crc texts d h
  exact ⟨n, by omega, by rwa [replay_rt]⟩

end SenderDaemon

/-- A queue's depth is the number of packets it stands for, in `u32`. -/
theorem PacketQueue.toNat_depth (q : PacketQueue) : q.depth.toNat = q.slots.length % 2 ^ 32 := by
  unfold depth slots
  induction q.items with
  | nil => rfl
  | cons item items ih =>
    have hone : item.slots.length = item.packetCount.toNat := by
      cases item <;> simp [WorkItem.slots, WorkItem.packetCount, RequestedRange.chunks]
    rw [List.map_cons, List.sum_cons, List.flatMap_cons, List.length_append, UInt32.toNat_add, ih, hone]
    omega

section

open ControlAdapter (handle Done Untouched)

/-- **The sender's control socket is its operations and nothing else.**  Whatever the clients send, in whatever pieces, and
however their connections and the main loop take turns, the runtime is where a run of operations leaves it: one for each
request that is an operation, in the order they were handled, and the loop's own.  A request not answered as done has left
queue, ledger and state alone; a status is the runtime's at its turn, and its depth the number of packets then due. -/
theorem sender_daemon_serves (crc : Bytes → UInt32) (texts : ForeignTexts) (codec : ControlCodec) (d : SenderDaemon)
    (steps : List (ControlStep SenderMove)) :
    let s := (ControlServer.start d).run codec (handle texts) (SenderMove.apply crc) steps
    s.handler.rt = SenderOp.run crc d.rt (d.trace crc texts s.history) ∧
    ∀ pre k req resp post, s.history = pre ++ .call k req resp :: post →
      let rt := SenderOp.run crc d.rt (d.trace crc texts pre)
      let rt' := SenderOp.run crc d.rt (d.trace crc texts (pre ++ [.call k req resp]))
      (¬ Done resp → Untouched rt rt') ∧
      ∀ status, resp = .senderStatus status → rt' = rt ∧ status = rt.status ∧
        status.queueDepth.toNat = rt.queue.slots.length % 2 ^ 32 := by
  intro s
  have hinv : s.Inv codec (handle texts) (SenderMove.apply crc) d := ControlServer.inv_start.run steps
  refine ⟨?_, fun pre k req resp post hsplit => ?_⟩
  · rw [← SenderDaemon.replay_rt, hinv.state]
  intro rt rt'
  have hlegal := hinv.legal
  rw [hsplit] at hlegal
  have hresp : (handle texts (Serial.replay (handle texts) (SenderMove.apply crc) d pre) req).1 = resp := hlegal.answer
  have hrt : rt = (Serial.replay (handle texts) (SenderMove.apply crc) d pre).rt := (SenderDaemon.replay_rt d pre).symm
  have hrt' : rt' = (handle texts (Serial.replay (handle texts) (SenderMove.apply crc) d pre) req).2.rt :=
    SenderDaemon.run_trace_call crc texts d pre k req resp
  rw [hrt, hrt']
  refine ⟨fun hnot => ControlAdapter.handle_untouched req (by rwa [hresp]), fun status hstatus => ?_⟩
  obtain ⟨hsame, rfl⟩ := ControlAdapter.handle_status (hresp.trans hstatus)
  exact ⟨by rw [hsame], rfl, PacketQueue.toNat_depth _⟩

end

/-- **A status with the same revision has seen the same queue.**  Between two statuses, however many clients and whatever
the main loop does, the queue is as it was all along if the revision is; so what they say of it is the same. -/
theorem same_revision_same_queue (crc : Bytes → UInt32) (texts : ForeignTexts) (codec : ControlCodec) (d : SenderDaemon)
    (steps : List (ControlStep SenderMove)) (pre mid post : List SenderDaemon.Entry) (k k' : Nat) (a b : SenderStatus)
    (hist : ((ControlServer.start d).run codec (ControlAdapter.handle texts) (SenderMove.apply crc) steps).history =
      pre ++ .call k .senderStatus (.senderStatus a) :: (mid ++ .call k' .senderStatus (.senderStatus b) :: post))
    (hrev : a.revision = b.revision) (hfew : mid.length < 2 ^ 62) :
    (∀ mid', mid' <+: mid →
      (Serial.replay (ControlAdapter.handle texts) (SenderMove.apply crc) d (pre ++ mid')).rt.queue.items =
        (Serial.replay (ControlAdapter.handle texts) (SenderMove.apply crc) d pre).rt.queue.items) ∧
    a.pending = b.pending ∧ a.queueDepth = b.queueDepth ∧ a.currentFileId = b.currentFileId := by
  have hinv : ((ControlServer.start d).run codec (ControlAdapter.handle texts) (SenderMove.apply crc) steps).Inv codec
      (ControlAdapter.handle texts) (SenderMove.apply crc) d := ControlServer.inv_start.run steps
  have hlegal := hinv.legal
  rw [hist] at hlegal
  have hrest := (Serial.legal_append.1 hlegal).2.2
  generalize hfirst : Serial.replay (ControlAdapter.handle texts) (SenderMove.apply crc) d pre = d₁ at *
  obtain ⟨-, ha⟩ := ControlAdapter.handle_status (show (ControlAdapter.handle texts d₁ .senderStatus).1 = .senderStatus a by
    rw [← hfirst]
    exact hlegal.answer)
  obtain ⟨-, hb⟩ := ControlAdapter.handle_status hrest.answer
  have hrev' : (Serial.replay (ControlAdapter.handle texts) (SenderMove.apply crc) d₁ mid).rt.queue.revision =
      d₁.rt.queue.revision := by
    rw [ha, hb] at hrev
    exact hrev.symm
  have hsame : ∀ mid', mid' <+: mid → (Serial.replay (ControlAdapter.handle texts) (SenderMove.apply crc) d₁
      mid').rt.queue.items = d₁.rt.queue.items := by
    rintro mid' ⟨later, rfl⟩
    obtain ⟨n, hn, hc⟩ := @SenderDaemon.changes_replay crc texts d₁ mid'
    obtain ⟨m, hm, hc'⟩ := @SenderDaemon.changes_replay crc texts
      (Serial.replay (ControlAdapter.handle texts) (SenderMove.apply crc) d₁ mid') later
    rw [Serial.replay_append] at hrev'
    rw [List.length_append] at hfew
    have h0 := (hc.trans hc').eq_zero (by omega) hrev'
    exact hc.same (by omega)
  have hitems : b.pending = a.pending ∧ b.queueDepth = a.queueDepth ∧ b.currentFileId = a.currentFileId := by
    have hmid := hsame mid List.prefix_rfl
    rw [ha, hb]
    refine ⟨?_, ?_, ?_⟩
    · exact congrArg (fun items => PacketQueue.snapshot ⟨items, 0⟩) hmid
    · exact congrArg (fun items => PacketQueue.depth ⟨items, 0⟩) hmid
    · exact congrArg (fun items : List WorkItem => (items.head?.map WorkItem.fileId).getD 0) hmid
  refine ⟨fun mid' hmid' => ?_, hitems.1.symm, hitems.2.1.symm, hitems.2.2.symm⟩
  rw [Serial.replay_append, hfirst]
  exact hsame mid' hmid'

/-! ## The cleaner's calls -/

/-- A cleaner's request, as it goes over the socket. -/
def SenderRequest.request : SenderRequest → Request
  | .enqueue fileId start count interrupt => .senderEnqueue fileId start count interrupt
  | .resendName fileId                    => .senderResendName fileId

/-- What a cleaner makes of a call's result: an error or nothing in time is a failure. -/
def ControlClient.reply : Option (Except String Response) → Reply
  | some (.ok .ok) => .ok
  | some (.ok _)   => .rejected
  | _              => .failed

/-- **The handler answers a cleaner's request as the runtime does.** -/
theorem ControlAdapter.handle_request (texts : ForeignTexts) (d : SenderDaemon) (q : SenderRequest) :
    d.rt.handle d.utc q = (ControlClient.reply (some (.ok (handle texts d q.request).1)), (handle texts d q.request).2.rt) ∧
      (ControlClient.reply (some (.ok (handle texts d q.request).1)) ≠ .ok → (handle texts d q.request).2.rt = d.rt) := by
  cases q with
  | enqueue id start count interrupt =>
    simp only [SenderRuntime.handle, SenderRequest.request, handle]
    cases h : d.rt.enqueue id start count interrupt d.utc with
    | mk r rt =>
      cases r with
      | ok u => exact ⟨rfl, fun hne => absurd rfl hne⟩
      | error e => exact ⟨rfl, fun _ => enqueue_error h⟩
  | resendName id =>
    simp only [SenderRuntime.handle, SenderRequest.request, handle]
    cases h : d.rt.resendName id with
    | mk r rt =>
      cases r with
      | ok u => exact ⟨rfl, fun hne => absurd rfl hne⟩
      | error e => exact ⟨rfl, fun _ => resendName_error h⟩

/-- **A cleaner's call over the socket is one step of the sender's runtime, or none.**  Other clients and the main loop work
on meanwhile.  An answer, `Ok` or not, is the runtime's own to this one request at the moment it was handled, and it has
done then what the answer says; without an answer in time the request was handled once or not at all. -/
theorem cleaner_call_over_socket (crc : Bytes → UInt32) (texts : ForeignTexts) (codec : ControlCodec) (d : SenderDaemon)
    (steps : List (ControlStep SenderMove)) (k : Nat) (c : Conn) (q : SenderRequest) (seen : Bytes)
    (hc : ((ControlServer.start d).run codec (ControlAdapter.handle texts) (SenderMove.apply crc) steps).conns[k]? = some c)
    (hreq : codec.parseRequest (codec.encodeRequest q.request) = .ok q.request)
    (hword : (codec.encodeRequest q.request).length < 2 ^ 32)
    (hsent : c.received <+: Frames.frame (codec.encodeRequest q.request)) (hseen : seen <+: c.outbound)
    (hresp : ∀ req resp, (req, resp) ∈ Serial.calls k
        ((ControlServer.start d).run codec (ControlAdapter.handle texts) (SenderMove.apply crc) steps).history →
      codec.parseResponse (codec.encodeResponse resp) = .ok resp ∧ (codec.encodeResponse resp).length < 2 ^ 32) :
    let s := (ControlServer.start d).run codec (ControlAdapter.handle texts) (SenderMove.apply crc) steps
    let reply := ControlClient.reply (ControlClient.readReply codec seen)
    (reply ≠ .failed → ∃ pre resp post, s.history = pre ++ .call k q.request resp :: post ∧
      Serial.calls k s.history = [(q.request, resp)] ∧
      let rt := SenderOp.run crc d.rt (d.trace crc texts pre)
      let rt' := SenderOp.run crc d.rt (d.trace crc texts (pre ++ [.call k q.request resp]))
      (∃ utc, rt.handle utc q = (reply, rt')) ∧ (reply = .rejected → rt' = rt)) ∧
    (reply = .failed → Serial.calls k s.history = [] ∨ ∃ resp, Serial.calls k s.history = [(q.request, resp)]) := by
  intro s reply
  have hinv : s.Inv codec (ControlAdapter.handle texts) (SenderMove.apply crc) d := ControlServer.inv_start.run steps
  refine ⟨fun hne => ?_, fun _ => ?_⟩
  · cases hread : ControlClient.readReply codec seen with
    | none => exact absurd (congrArg ControlClient.reply hread) hne
    | some x =>
      obtain ⟨pre, resp, post, hsplit, hone, hserve, hx⟩ := hinv.read hc hreq hword hsent hseen hread
      obtain ⟨hparse, hsize⟩ := hresp q.request resp (by rw [hone]; exact List.mem_singleton_self _)
      obtain ⟨hhandle, hsame⟩ := ControlAdapter.handle_request texts
        (Serial.replay (ControlAdapter.handle texts) (SenderMove.apply crc) d pre) q
      have hreply : reply = ControlClient.reply (some (.ok resp)) := by
        show ControlClient.reply (ControlClient.readReply codec seen) = _
        rw [hread, hx hsize, hparse]
      have hafter := SenderDaemon.run_trace_call crc texts d pre k q.request resp
      rw [hserve] at hhandle hsame
      refine ⟨pre, resp, post, hsplit, hone, ?_⟩
      dsimp only
      rw [hafter, ← SenderDaemon.replay_rt, hreply]
      exact ⟨⟨_, hhandle⟩, fun hrej => hsame (by rw [hrej]; decide)⟩
  · rcases hinv.once hc hreq hword hsent with ⟨hnone, -, -⟩ | ⟨-, resp, hone, -, -⟩
    · exact .inl hnone
    · exact .inr ⟨resp, hone⟩

/-- The JSON of a request for a name and of its answer. -/
def ControlCodec.names : ControlCodec where
  encodeRequest := fun _ => Utf8.encode "\x7b\"op\":\"sender_resend_name\",\"file_id\":1\x7d".toList
  parseRequest := fun _ => .ok (.senderResendName 1)
  encodeResponse := fun _ => Utf8.encode "\x7b\"kind\":\"ok\"\x7d".toList
  parseResponse := fun _ => .ok .ok

/-- The cleaner asks for the name of the file the sender has. -/
theorem cleaner_call_over_socket_name :
    let texts : ForeignTexts := ⟨fun _ => "", "", "", fun _ => ""⟩
    let bytes := Frames.frame (ControlCodec.names.encodeRequest (.senderResendName 1))
    let d : SenderDaemon := ⟨SenderOp.run crc32 Forty.start [Forty.submit], fun _ => .error .notFound, none, 0⟩
    let s := (ControlServer.start d).run .names (ControlAdapter.handle texts) (SenderMove.apply crc32)
      [.accept, .arrive 0 bytes, .turn 0 none, .turn 0 none, .turn 0 none]
    ∃ resp, Serial.calls 0 s.history = [(.senderResendName 1, resp)] := by
  intro texts bytes d s
  let seen := Frames.frame (ControlCodec.names.encodeResponse .ok)
  have hcalls : Serial.calls 0 s.history = [(.senderResendName 1, .ok)] := by decide +kernel
  have hconn : s.conns[0]? = some ⟨bytes, [], false, .reading, seen⟩ := by decide +kernel
  obtain ⟨pre, resp, post, -, hone, -⟩ := (cleaner_call_over_socket crc32 texts .names d _ 0 _ (.resendName 1) seen hconn rfl
    (by decide +kernel) List.prefix_rfl List.prefix_rfl (fun req resp hr => by
      rw [hcalls] at hr
      cases List.mem_singleton.1 hr
      exact ⟨rfl, by decide +kernel⟩)).1 (by decide +kernel)
  exact ⟨resp, hone⟩

/-- The JSON of the request for a status. -/
def ControlCodec.statuses : ControlCodec where
  encodeRequest := fun _ => Utf8.encode "\x7b\"op\":\"sender_status\"\x7d".toList
  parseRequest := fun _ => .ok .senderStatus
  encodeResponse := fun _ => []
  parseResponse := fun _ => .error "EOF while parsing a value at line 1 column 0"

/-- Two clients poll a sender with a file queued; between their polls the loop notes the time. -/
theorem same_revision_same_queue_two_polls :
    let rt := SenderOp.run crc32 Forty.start [Forty.setChunkSize 64, Forty.submit]
    let rt' := { rt with lastRecheck := 7, lastStatusDump := 7 }
    rt.status.pending = rt'.status.pending ∧ rt.status.queueDepth = rt'.status.queueDepth ∧
      rt.status.currentFileId = rt'.status.currentFileId := by
  intro rt rt'
  let texts : ForeignTexts := ⟨fun _ => "", "", "", fun _ => ""⟩
  let bytes := Frames.frame (ControlCodec.statuses.encodeRequest .senderStatus)
  let d : SenderDaemon := ⟨rt, fun _ => .error .notFound, none, 0⟩
  let steps : List (ControlStep SenderMove) := [.accept, .accept, .arrive 0 bytes, .arrive 1 bytes, .turn 0 none,
    .turn 0 none, .turn 1 none, .outside (.op (.stamp 7 7)), .turn 1 none]
  have hist : ((ControlServer.start d).run .statuses (ControlAdapter.handle texts) (SenderMove.apply crc32) steps).history =
      [] ++ .call 0 .senderStatus (.senderStatus rt.status) ::
        ([.change (.op (.stamp 7 7))] ++ .call 1 .senderStatus (.senderStatus rt'.status) :: []) := rfl
  exact (same_revision_same_queue crc32 texts .statuses d steps [] [.change (.op (.stamp 7 7))] [] 0 1 rt.status rt'.status
    hist rfl (by decide)).2

end Parachuter
