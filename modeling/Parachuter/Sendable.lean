import Parachuter.Operations
/-!
# Sendable — queued ranges against the chunk size in force

A range is computed at one chunk size and cut at another if the size has changed since.  On files whose size stays as it
is, the queue holds only ranges its chunkers can serve (`Fits`) along every run whose chunk-size changes leave the
queued ranges in range (`SenderOp.Keeps`), and then `send_next` never answers `OutOfRange`.
-/
namespace Parachuter

open Blob (Bytes)

/-- The files on the payload have the sizes given. -/
def SizesAgree (size : Text → UInt64) (files : Text → Option Bytes) : Prop :=
  ∀ name file, files name = some file → file.length = (size name).toNat

/-- The chunk count of a file at a chunk size, as `enqueue` and `Chunker::open` both compute it. -/
def countAt (size : Text → UInt64) (name : Text) (chunkSize : Nat) : UInt32 :=
  chunksForSize (size name).toNat (chunkSize - HEADER_LEN)

/-- An item's range, if it has one, is not empty and ends within its file. -/
def Fits (size : Text → UInt64) : ItemCond := fun ledger chunkSize item =>
  ∀ range, item.range? = some range → ∃ rec, ledger.get item.fileId = some rec ∧ 1 ≤ range.count.toNat ∧
    range.start.toNat + range.count.toNat ≤ (countAt size rec.fileName chunkSize).toNat

variable {size : Text → UInt64}

theorem fits_manifest (l : Ledger) (c : Nat) (id : FileId) (name : Text) : Fits size l c (.manifest id name) := by
  intro range h
  cases h

theorem fits_rest {l : Ledger} {c : Nat} {id : FileId} {item : RequestedRange → WorkItem}
    (hr : ∀ r, (item r).range? = some r) (hid : ∀ r, (item r).fileId = id) {r : RequestedRange} (h1 : 1 < r.count)
    (h : Fits size l c (item r)) : Fits size l c (item r.rest) := by
  obtain ⟨rec, hrec, hpos, hle⟩ := h r (hr r)
  intro range hrange
  rw [hr] at hrange
  cases hrange
  rw [hid] at hrec ⊢
  have hcount : 1 < r.count.toNat := UInt32.lt_iff_toNat_lt.1 h1
  have hlt := (countAt size rec.fileName c).toNat_lt
  obtain ⟨hs, hc⟩ := RequestedRange.toNat_rest hpos (by omega)
  exact ⟨rec, hrec, by rw [hc]; omega, by rw [hs, hc]; omega⟩

theorem fits_stable : (Fits size).Stable where
  mono := by
    intro l l' c item hext h range hrange
    obtain ⟨rec, hrec, hpos, hle⟩ := h range hrange
    obtain ⟨rec', hrec', hname, -⟩ := hext _ rec hrec
    exact ⟨rec', hrec', hpos, by rw [hname]; exact hle⟩
  data := fun {_ _ id r} h1 h => @fits_rest size _ _ id (.data id) (fun _ => rfl) (fun _ => rfl) r h1 h
  retransmit := fun {_ _ id r} h1 h => @fits_rest size _ _ id (.retransmit id) (fun _ => rfl) (fun _ => rfl) r h1 h

/-- A whole file fits unless its chunk count is a multiple of `2 ^ 32`. -/
theorem fits_whole {l : Ledger} {c : Nat} {id : FileId} {rec : FileRecord} (hrec : l.get id = some rec)
    (hne : countAt size rec.fileName c ≠ 0) : Fits size l c (.data id ⟨0, countAt size rec.fileName c⟩) := by
  intro range hrange
  cases hrange
  refine ⟨rec, hrec, Nat.one_le_iff_ne_zero.2 (fun h0 => hne (UInt32.toNat_inj.1 h0)), ?_⟩
  rw [UInt32.toNat_zero, Nat.zero_add]

theorem fits_clamped {l : Ledger} {c : Nat} {id : FileId} {rec : FileRecord} (hrec : l.get id = some rec)
    (s count : UInt32) (hs : s < countAt size rec.fileName c) :
    Fits size l c (.retransmit id ⟨s, min (max count 1) (countAt size rec.fileName c - s)⟩) := by
  intro range hrange
  cases hrange
  have hlt := UInt32.lt_iff_toNat_lt.1 hs
  have hclamp := RequestedRange.toNat_clamp count (countAt size rec.fileName c - s)
  rw [UInt32.toNat_sub_of_le _ _ (UInt32.le_iff_toNat_le.2 (Nat.le_of_lt hlt))] at hclamp
  refine ⟨rec, hrec, ?_, ?_⟩ <;> dsimp only <;> rw [hclamp] <;> omega

namespace SenderOp

/-- What the operation sees of the payload's files agrees with the sizes. -/
def Steady (size : Text → UInt64) : SenderOp → Prop
  | .submit metadata cwd path _ _ =>
    ∀ info, metadata path = .ok info → info.isFile = true → info.len = size (SenderRuntime.absolute cwd path)
  | .scanForWork view _           => ∀ k dir p len time, (view k dir).metadata p = some (len, time) → len = size p
  | .sendNext payload             => SizesAgree size payload.files
  | _                             => True

/-- **What keeps the queue sendable.**  A file pushed whole has a chunk count that is no multiple of `2 ^ 32`, and a
chunk size that comes into force leaves every queued range within its file. -/
def Keeps (size : Text → UInt64) (rt : SenderRuntime) : SenderOp → Prop
  | .submit _ cwd path _ _ => countAt size (SenderRuntime.absolute cwd path) rt.currentChunkSize ≠ 0
  | .enqueue id start _ _ _ =>
    start < 0 → ∀ rec, rt.ledger.get id = some rec → countAt size rec.fileName rt.currentChunkSize ≠ 0
  | .scanForWork view _ =>
    ∀ c, Scanner.nextCandidate view rt.scanDirs rt.cfg.current.sender.includeExtensions
      rt.cfg.current.sender.skipExtensions rt.ledger = .ok (some c) → countAt size c.path rt.currentChunkSize ≠ 0
  | .applyOverride o =>
    ∀ c, o.chunkSize = some c → o.linkKnown rt.cfg.current = true → o.sizeOk = true →
      ∀ item ∈ rt.queue.items, Fits size rt.ledger c item
  | .reload cfg =>
    rt.overrideChunkSize = none → ∀ item ∈ rt.queue.items, Fits size rt.ledger cfg.current.sender.chunkSize item
  | _ => True

/-- Every operation of the run keeps the queue sendable, at the runtime it meets. -/
def RunKeeps (crc : Bytes → UInt32) (size : Text → UInt64) : SenderRuntime → List SenderOp → Prop
  | _, []         => True
  | rt, op :: ops => Keeps size rt op ∧ RunKeeps crc size (op.apply crc rt) ops

end SenderOp

namespace SenderRuntime

/-! ## The ledger's sizes -/

theorem sized_pushFullFile {rt : SenderRuntime} (h : rt.ledger.Sized size) (id : FileId) (name : Text) (total : UInt32)
    (interrupt : Bool) (utc : DateTime) : (rt.pushFullFile id name total interrupt utc).ledger.Sized size :=
  h.markQueued id utc

theorem sized_registerAndPush {rt : SenderRuntime} (h : rt.ledger.Sized size) {name : Text} {len : UInt64}
    (hlen : len = size name) (created : DateTime) (interrupt : Bool) (utc : DateTime) :
    (rt.registerAndPush name len created interrupt utc).2.ledger.Sized size := by
  unfold registerAndPush
  dsimp only
  split
  · exact h
  · rename_i id l hl
    exact sized_pushFullFile ((Ledger.upsertFile_ok hl).2.2 size h hlen) _ _ _ _ _

theorem sized_sendNext {rt : SenderRuntime} (h : rt.ledger.Sized size) (crc : Bytes → UInt32) (payload : Payload) :
    (rt.sendNext crc payload).rt.ledger.Sized size := by
  obtain ⟨ledger, queue, rateLimiter, heq, rfl | ⟨name, rfl⟩⟩ := sendNext_leaves crc payload rt
  · rw [heq]
    exact h
  · rw [heq]
    exact h.markGone name

end SenderRuntime

/-- Rows have their files' sizes, and queued ranges fit. -/
structure Sendable (size : Text → UInt64) (rt : SenderRuntime) : Prop where
  sized  : rt.ledger.Sized size
  queued : rt.Queued (Fits size)

namespace Sendable

open SenderRuntime (absolute)

theorem whole {rt : SenderRuntime} {name : Text} {len : UInt64} (hlen : len = size name)
    (hne : countAt size name rt.currentChunkSize ≠ 0) (l : Ledger) (id : FileId) (r : FileRecord)
    (hr : l.get id = some r) (hname : r.fileName = name) : Fits size l rt.currentChunkSize (.manifest id name) ∧
      Fits size l rt.currentChunkSize (.data id ⟨0, rt.totalFor len⟩) := by
  subst hname
  have htotal : rt.totalFor len = countAt size r.fileName rt.currentChunkSize := by rw [hlen]; rfl
  rw [htotal]
  exact ⟨fits_manifest _ _ _ _, fits_whole hr hne⟩

theorem submit {rt : SenderRuntime} (h : Sendable size rt) {metadata : Text → Except IoError FileMeta}
    {cwd : Option Text} {path : Text} (interrupt : Bool) (utc : DateTime)
    (hs : ∀ info, metadata path = .ok info → info.isFile = true → info.len = size (absolute cwd path))
    (hk : countAt size (absolute cwd path) rt.currentChunkSize ≠ 0) :
    Sendable size (rt.submit metadata cwd path interrupt utc).2 := by
  refine ⟨?_, h.queued.submit fits_stable _ _ _ _ _ (fun info hi hf => whole (hs info hi hf) hk)⟩
  unfold SenderRuntime.submit
  split
  · exact h.sized
  · exact h.sized
  · rename_i info hinfo
    split
    · exact h.sized
    · rename_i hf
      exact SenderRuntime.sized_registerAndPush h.sized (hs info hinfo (Bool.eq_true_of_not_eq_false hf)) _ _ _

theorem enqueue {rt : SenderRuntime} (h : Sendable size rt) {id : FileId} {start : Int32} (count : UInt32)
    (interrupt : Bool) (utc : DateTime)
    (hk : start < 0 → ∀ rec, rt.ledger.get id = some rec → countAt size rec.fileName rt.currentChunkSize ≠ 0) :
    Sendable size (rt.enqueue id start count interrupt utc).2 := by
  have htotal : ∀ rec, rt.ledger.get id = some rec →
      rt.totalFor rec.fileSize = countAt size rec.fileName rt.currentChunkSize ∧ rec.fileId = id := by
    intro rec hrec
    obtain ⟨hmem, hid⟩ := Ledger.mem_of_get hrec
    exact ⟨by rw [SenderRuntime.totalFor, h.sized rec hmem]; rfl, hid⟩
  refine ⟨?_, h.queued.enqueue fits_stable start count interrupt utc (fun hneg rec hrec => ?_) (fun rec hrec s hs => ?_)⟩
  · unfold SenderRuntime.enqueue
    split
    · exact h.sized
    · dsimp only
      split
      · exact SenderRuntime.sized_pushFullFile h.sized _ _ _ _ _
      · split
        · exact h.sized
        · exact h.sized
  · obtain ⟨ht, hid⟩ := htotal rec hrec
    rw [ht, hid]
    exact ⟨fits_manifest _ _ _ _, fits_whole hrec (hk hneg rec hrec)⟩
  · obtain ⟨ht, hid⟩ := htotal rec hrec
    rw [ht] at hs ⊢
    rw [hid]
    exact fits_clamped hrec s count hs

theorem scanForWork {rt : SenderRuntime} (h : Sendable size rt) {view : Nat → Text → DirView} (utc : DateTime)
    (hs : ∀ k dir p len time, (view k dir).metadata p = some (len, time) → len = size p)
    (hk : ∀ c, Scanner.nextCandidate view rt.scanDirs rt.cfg.current.sender.includeExtensions
      rt.cfg.current.sender.skipExtensions rt.ledger = .ok (some c) → countAt size c.path rt.currentChunkSize ≠ 0) :
    Sendable size (rt.scanForWork view utc).2 := by
  have hlen : ∀ c, Scanner.nextCandidate view rt.scanDirs rt.cfg.current.sender.includeExtensions
      rt.cfg.current.sender.skipExtensions rt.ledger = .ok (some c) → c.size = size c.path := by
    intro c hc
    obtain ⟨-, j, dir, -, -, hm⟩ := Scanner.nextCandidate_some hc
    exact hs j dir _ _ _ hm
  refine ⟨?_, h.queued.scanForWork fits_stable view utc (fun c hc => whole (hlen c hc) (hk c hc))⟩
  unfold SenderRuntime.scanForWork
  dsimp only
  split
  · exact h.sized
  · exact h.sized
  · rename_i c hc
    have h' := SenderRuntime.sized_registerAndPush h.sized (hlen c hc) c.createdAt false utc
    split <;> (rename_i heq; rw [heq] at h'; exact h')

theorem applyOverride {rt : SenderRuntime} (h : Sendable size rt) (o : LinkOverride)
    (hk : ∀ c, o.chunkSize = some c → o.linkKnown rt.cfg.current = true → o.sizeOk = true →
      ∀ item ∈ rt.queue.items, Fits size rt.ledger c item) : Sendable size (rt.applyOverride o).2 := by
  refine ⟨?_, h.queued.applyOverride o hk⟩
  unfold SenderRuntime.applyOverride
  split
  · exact h.sized
  · dsimp only
    split
    · exact h.sized
    · exact h.sized

/-- **One operation keeps the queue sendable.** -/
theorem step (crc : Bytes → UInt32) {rt : SenderRuntime} (h : Sendable size rt) {op : SenderOp} (hs : op.Steady size)
    (hk : op.Keeps size rt) : Sendable size (op.apply crc rt) := by
  cases op with
  | submit metadata cwd path interrupt utc => exact h.submit interrupt utc hs hk
  | enqueue fileId start count interrupt utc => exact h.enqueue count interrupt utc hk
  | resendName fileId =>
    refine ⟨?_, h.queued.resendName (fun _ _ => fits_manifest _ _ _ _)⟩
    unfold SenderOp.apply SenderRuntime.resendName
    dsimp only
    split
    · exact h.sized
    · exact h.sized
  | scanForWork view utc => exact h.scanForWork utc hs hk
  | applyOverride o => exact h.applyOverride o hk
  | setState new =>
    refine ⟨?_, h.queued.setState new⟩
    cases new with
    | auto => exact h.sized
    | manual => exact h.sized
    | paused => exact h.sized
    | debug => exact h.sized
  | flush => exact ⟨h.sized, SenderRuntime.Queued.clear rt⟩
  | sendNext payload => exact ⟨SenderRuntime.sized_sendNext h.sized crc payload, h.queued.sendNext fits_stable crc payload⟩
  | reload cfg =>
    refine ⟨h.sized, fun item hi => ?_⟩
    -- an override in force hides the new configuration's chunk size
    cases ho : rt.overrideChunkSize with
    | none =>
      simp only [SenderOp.apply, SenderRuntime.currentChunkSize, ho]
      exact hk ho item hi
    | some c =>
      have hitem := h.queued item hi
      simp only [SenderRuntime.currentChunkSize, ho] at hitem
      simp only [SenderOp.apply, SenderRuntime.currentChunkSize, ho]
      exact hitem
  | stamp lastRecheck lastStatusDump => exact ⟨h.sized, h.queued⟩

theorem run (crc : Bytes → UInt32) : ∀ (ops : List SenderOp) {rt : SenderRuntime}, Sendable size rt →
    (∀ op ∈ ops, op.Steady size) → SenderOp.RunKeeps crc size rt ops → Sendable size (SenderOp.run crc rt ops)
  | [], _, h, _, _         => h
  | op :: ops, _, h, hs, hk =>
    run crc ops (h.step crc (hs op List.mem_cons_self) hk.1) (fun o ho => hs o (List.mem_cons_of_mem _ ho)) hk.2

theorem new (cfg : LiveConfig) {ledger : Ledger} (h : ledger.Sized size) (now : Int) (nowSecs : ℚ) :
    Sendable size (SenderRuntime.new cfg ledger now nowSecs) := ⟨h, fun _ hi => by cases hi⟩

/-! ## No range is refused -/

/-- Every chunker opened for a queued range can serve it. -/
theorem serves {rt : SenderRuntime} (h : Sendable size rt) {item : WorkItem} (hi : item ∈ rt.queue.items)
    {range : RequestedRange} (hr : item.range? = some range) {files : Text → Option Bytes} (hf : SizesAgree size files)
    {rec : FileRecord} (hrec : rt.ledger.get item.fileId = some rec) {chunker : Chunker}
    (hc : Chunker.open files rec.fileName item.fileId rt.currentChunkSize = .ok chunker) :
    range.start.toNat + range.count.toNat ≤ chunker.numChunks.toNat := by
  obtain ⟨rec', hrec', -, hle⟩ := h.queued item hi range hr
  obtain ⟨file, hfile, rfl⟩ := Chunker.open_ok hc
  rw [hrec] at hrec'
  cases hrec'
  have hlen := hf _ _ hfile
  rw [countAt, ← hlen] at hle
  exact hle

theorem emit_ne_outOfRange (rt : SenderRuntime) (payload : Payload) (bytes : Bytes) (i n : UInt32) :
    (rt.emit payload bytes).result ≠ .error (.failed (.outOfRange i n)) := by
  unfold SenderRuntime.emit Net.sendTo
  dsimp only
  intro h
  split at h
  · cases h
  split at h
  · rename_i e he
    cases h
    split at he
    · split at he
      · cases he
      · cases he
    · cases he
  · cases h

theorem sendRange_ne_outOfRange {rt : SenderRuntime} (crc : Bytes → UInt32) (payload : Payload)
    {packet : Chunker → UInt32 → Except Error Packet} {item : RequestedRange → WorkItem} {id : FileId}
    {range : RequestedRange} (hp : ∀ c i, i < c.numChunks → ∃ p, packet c i = .ok p)
    (hr : ∀ rec chunker, rt.ledger.get id = some rec →
      Chunker.open payload.files rec.fileName id rt.currentChunkSize = .ok chunker → range.start < chunker.numChunks)
    (i n : UInt32) :
    (SenderRuntime.sendRange crc payload packet item rt id range).result ≠ .error (.failed (.outOfRange i n)) := by
  unfold SenderRuntime.sendRange
  split
  · intro h
    cases h
  rename_i rec hrec
  split
  · intro h
    cases h
  · rename_i e hne he
    intro h
    cases h
    rcases Chunker.open_error he with h | h
    · cases h
    · cases h
  · rename_i chunker hc
    obtain ⟨p, hpk⟩ := hp chunker range.start (hr rec chunker hrec hc)
    rw [hpk]
    have hout := emit_ne_outOfRange rt payload (p.encode crc) i n
    dsimp only
    split
    · exact hout
    · rename_i b hb
      rw [hb] at hout
      split
      · intro h
        exact hout (hb.symm.trans h)
      · intro h
        exact hout (hb.symm.trans h)

/-- **`send_next` never answers `OutOfRange`** on a sendable queue. -/
theorem sendNext_ne_outOfRange {rt : SenderRuntime} (h : Sendable size rt) (crc : Bytes → UInt32) (payload : Payload)
    (hf : SizesAgree size payload.files) (i n : UInt32) :
    (rt.sendNext crc payload).result ≠ .error (.failed (.outOfRange i n)) := by
  rcases SenderRuntime.sendNext_cases crc payload rt with heq | ⟨item, items, -, hq, heq⟩
  · rw [heq]
    intro hr
    cases hr
  have hi : item ∈ rt.queue.items := by rw [hq]; exact List.mem_cons_self
  have hlt : ∀ range, item.range? = some range → ∀ rec chunker, rt.ledger.get item.fileId = some rec →
      Chunker.open payload.files rec.fileName item.fileId rt.currentChunkSize = .ok chunker →
      range.start < chunker.numChunks := by
    intro range hr rec chunker hrec hc
    obtain ⟨-, -, hpos, -⟩ := h.queued item hi range hr
    have hle := h.serves hi hr hf hrec hc
    rw [UInt32.lt_iff_toNat_lt]
    omega
  rw [heq]
  cases item with
  | manifest id name =>
    simp only [SenderRuntime.sendItem, SenderRuntime.sendManifest]
    split
    · rename_i e he
      intro hr
      cases hr
      rcases Chunker.open_error he with h | h
      · cases h
      · cases h
    · exact emit_ne_outOfRange _ _ _ _ _
  | data id range =>
    refine sendRange_ne_outOfRange crc payload (fun c i => Chunker.dataPacket_of_lt) ?_ i n
    exact hlt range rfl
  | retransmit id range =>
    refine sendRange_ne_outOfRange crc payload (fun c i => Chunker.retransmitPacket_of_lt) ?_ i n
    exact hlt range rfl

end Sendable

/-- **Queued ranges are sendable along every run whose changes of chunk size keep them in range.** -/
theorem queue_ranges_sendable (crc : Bytes → UInt32) (size : Text → UInt64) (cfg : LiveConfig) (ledger : Ledger)
    (now : Int) (nowSecs : ℚ) (hl : ledger.Sized size) (ops : List SenderOp) (hs : ∀ op ∈ ops, op.Steady size)
    (hk : SenderOp.RunKeeps crc size (SenderRuntime.new cfg ledger now nowSecs) ops) :
    let rt := SenderOp.run crc (SenderRuntime.new cfg ledger now nowSecs) ops
    (∀ item ∈ rt.queue.items, ∀ range, item.range? = some range → 1 ≤ range.count.toNat ∧
      ∀ files, SizesAgree size files → ∀ rec chunker, rt.ledger.get item.fileId = some rec →
        Chunker.open files rec.fileName item.fileId rt.currentChunkSize = .ok chunker →
        range.start.toNat + range.count.toNat ≤ chunker.numChunks.toNat) ∧
    ∀ payload, SizesAgree size payload.files → ∀ i n, (rt.sendNext crc payload).result ≠ .error (.failed (.outOfRange i n)) := by
  intro rt
  have h := Sendable.run crc ops (Sendable.new cfg hl now nowSecs) hs hk
  refine ⟨fun item hi range hr => ⟨?_, fun files hf rec chunker hrec hc => h.serves hi hr hf hrec hc⟩,
    fun payload hf i n => h.sendNext_ne_outOfRange crc payload hf i n⟩
  obtain ⟨-, -, hpos, -⟩ := h.queued item hi range hr
  exact hpos

namespace Forty

theorem steady {op : SenderOp} (h : op = submit ∨ op = send ∨ ∃ c, op = setChunkSize c) : op.Steady (fun _ => 40) := by
  rcases h with rfl | rfl | ⟨c, rfl⟩
  · intro info hi _
    cases hi
    rfl
  · intro name file hf
    simp only [Payload.ideal, files] at hf
    split at hf
    · cases hf
      rfl
    · cases hf
  · exact trivial

end Forty

/-- Queued as one chunk, then cut in two: the range still fits. -/
theorem queue_ranges_sendable_lowered :
    let rt := SenderOp.run crc32 Forty.start [Forty.submit, Forty.send, Forty.setChunkSize 64]
    rt.queue.items = [.data 1 ⟨0, 1⟩] ∧
      ∀ i n, (rt.sendNext crc32 (.ideal Forty.files)).result ≠ .error (.failed (.outOfRange i n)) := by
  intro rt
  have hq : rt.queue.items = [.data 1 ⟨0, 1⟩] := by decide +kernel
  have hcount : countAt (fun _ => 40) "/a".toList DEFAULT_CHUNK_SIZE ≠ 0 := by decide
  refine ⟨hq, (queue_ranges_sendable crc32 (fun _ => 40) .default .empty 0 0 (fun _ h => by cases h)
    [Forty.submit, Forty.send, Forty.setChunkSize 64] ?_ ⟨hcount, trivial, ?_, trivial⟩).2 _
      (@Forty.steady Forty.send (.inr (.inl rfl)))⟩
  · intro op hop
    simp only [List.mem_cons, List.not_mem_nil, or_false] at hop
    rcases hop with rfl | rfl | rfl
    · exact Forty.steady (.inl rfl)
    · exact Forty.steady (.inr (.inl rfl))
    · exact Forty.steady (.inr (.inr ⟨64, rfl⟩))
  · intro c hc _ _ item hi
    cases hc
    have hi' : item ∈ rt.queue.items := hi
    rw [hq, List.mem_singleton] at hi'
    subst hi'
    intro range hr
    cases hr
    obtain ⟨rec, hrec⟩ := Option.isSome_iff_exists.1
      (by decide +kernel : ((SenderOp.run crc32 Forty.start [Forty.submit, Forty.send]).ledger.get 1).isSome = true)
    exact ⟨rec, hrec, by decide, (by decide : 0 + 1 ≤ (countAt (fun _ => 40) "/a".toList 64).toNat)⟩

/-- **Queued at chunk size 64 and half sent, then sent at 96**: the second of what were two chunks is out of range. -/
theorem queue_range_not_sendable :
    let ops := [Forty.setChunkSize 64, Forty.submit, Forty.send, Forty.send, Forty.setChunkSize 96]
    let rt := SenderOp.run crc32 Forty.start ops
    (∀ op ∈ ops, op.Steady (fun _ => 40)) ∧ rt.queue.items = [.data 1 ⟨1, 1⟩] ∧
      (rt.sendNext crc32 (.ideal Forty.files)).result = .error (.failed (.outOfRange 1 1)) := by
  intro ops rt
  refine ⟨fun op hop => ?_, by decide +kernel, by decide +kernel⟩
  simp only [ops, List.mem_cons, List.not_mem_nil, or_false] at hop
  rcases hop with rfl | rfl | rfl | rfl | rfl
  · exact Forty.steady (.inr (.inr ⟨64, rfl⟩))
  · exact Forty.steady (.inl rfl)
  · exact Forty.steady (.inr (.inl rfl))
  · exact Forty.steady (.inr (.inl rfl))
  · exact Forty.steady (.inr (.inr ⟨96, rfl⟩))

end Parachuter
