import Parachuter.Operations
/-!
# Vanished — payload files that disappear

In every reachable runtime each queued item has its ledger row and the chunk size in force is valid (`Wf`), so what a
turn of the main loop answers is decided by the head of the queue and by the one file a scan asks about.  A range of a
file that is gone is dropped and its row marked; a manifest of such a file, and a scan whose file disappears under it,
end the turn with an error.
-/
namespace Parachuter

open Blob (Bytes)

/-- An item has its ledger row, and a manifest has the row's name. -/
def Known : ItemCond := fun ledger _ item =>
  ∃ rec, ledger.get item.fileId = some rec ∧ ∀ id name, item = .manifest id name → name = rec.fileName

theorem known_stable : Known.Stable where
  mono := by
    rintro l l' c item hext ⟨rec, hrec, hname⟩
    obtain ⟨rec', hrec', heq, -⟩ := hext _ rec hrec
    exact ⟨rec', hrec', fun id name hi => (hname id name hi).trans heq.symm⟩
  data := by
    rintro l c id r - ⟨rec, hrec, -⟩
    exact ⟨rec, hrec, fun id name hi => by cases hi⟩
  retransmit := by
    rintro l c id r - ⟨rec, hrec, -⟩
    exact ⟨rec, hrec, fun id name hi => by cases hi⟩

theorem known_pushed {l : Ledger} {c c' : Nat} {id : FileId} {rec : FileRecord} {name : Text} {range : RequestedRange}
    (hrec : l.get id = some rec) (hname : rec.fileName = name) :
    Known l c (.manifest id name) ∧ Known l c' (.data id range) := by
  refine ⟨⟨rec, hrec, fun i n hi => ?_⟩, ⟨rec, hrec, fun i n hi => by cases hi⟩⟩
  cases hi
  exact hname.symm

namespace SenderRuntime

structure Wf (rt : SenderRuntime) : Prop where
  known : rt.Queued Known
  size  : ∀ c, rt.overrideChunkSize = some c → MIN_CHUNK_SIZE ≤ c ∧ c ≤ MAX_CHUNK_SIZE

theorem Wf.chunkSize_ok {rt : SenderRuntime} (h : rt.Wf) :
    MIN_CHUNK_SIZE ≤ rt.currentChunkSize ∧ rt.currentChunkSize ≤ MAX_CHUNK_SIZE := by
  unfold currentChunkSize
  cases ho : rt.overrideChunkSize with
  | none => exact rt.cfg.chunkSize_ok
  | some c => exact h.size c ho

/-! ## The override of the chunk size -/

/-- **Every operation but an override leaves the override of the chunk size alone.** -/
theorem override_apply (crc : Bytes → UInt32) (rt : SenderRuntime) {op : SenderOp} (h : ∀ o, op ≠ .applyOverride o) :
    (op.apply crc rt).overrideChunkSize = rt.overrideChunkSize := by
  have honQueue : op.OnQueue → (op.apply crc rt).overrideChunkSize = rt.overrideChunkSize := by
    intro hop
    obtain ⟨ledger, queue, rateLimiter, heq⟩ := apply_leaves crc rt hop
    rw [heq]
  cases op with
  | applyOverride o => exact absurd rfl (h o)
  | setState new => cases new <;> rfl
  | reload cfg => rfl
  | stamp lastRecheck lastStatusDump => rfl
  | _ => exact honQueue trivial

namespace Wf

theorem applyOverride {rt : SenderRuntime} (h : rt.Wf) (o : LinkOverride) : (rt.applyOverride o).2.Wf := by
  refine ⟨h.known.applyOverride o (fun c _ _ _ item hi => h.known item hi), ?_⟩
  unfold SenderRuntime.applyOverride
  split
  · exact h.size
  dsimp only
  split
  · exact h.size
  · rename_i hok
    intro c hc
    cases ho : o.chunkSize with
    | none =>
      rw [ho] at hc
      exact h.size c hc
    | some c' =>
      rw [ho] at hc
      cases hc
      rw [LinkOverride.sizeOk, ho, Bool.not_eq_false] at hok
      exact of_decide_eq_true hok

/-- **Every operation keeps the runtime well formed.** -/
theorem step (crc : Bytes → UInt32) {rt : SenderRuntime} (h : rt.Wf) (op : SenderOp) : (op.apply crc rt).Wf := by
  have hsize : (∀ o, op ≠ .applyOverride o) →
      ∀ c, (op.apply crc rt).overrideChunkSize = some c → MIN_CHUNK_SIZE ≤ c ∧ c ≤ MAX_CHUNK_SIZE := by
    intro hop c hc
    rw [override_apply crc rt hop] at hc
    exact h.size c hc
  have hrow : ∀ {id : FileId} {rec : FileRecord}, rt.ledger.get id = some rec → rt.ledger.get rec.fileId = some rec :=
    fun hrec => by rw [(Ledger.mem_of_get hrec).2]; exact hrec
  cases op with
  | submit metadata cwd path interrupt utc =>
    exact ⟨h.known.submit known_stable _ _ _ _ _ (fun _ _ _ _ _ _ hr hn => known_pushed hr hn), hsize (by simp)⟩
  | enqueue fileId start count interrupt utc =>
    refine ⟨h.known.enqueue known_stable _ _ _ _ (fun _ rec hrec => known_pushed (hrow hrec) rfl) ?_, hsize (by simp)⟩
    intro rec hrec s _
    exact ⟨rec, hrow hrec, fun i n hi => by cases hi⟩
  | resendName fileId =>
    refine ⟨h.known.resendName (fun rec hrec => ?_), hsize (by simp)⟩
    exact (@known_pushed _ _ 0 _ _ _ ⟨0, 0⟩ (hrow hrec) rfl).1
  | scanForWork view utc =>
    exact ⟨h.known.scanForWork known_stable _ _ (fun _ _ _ _ _ hr hn => known_pushed hr hn), hsize (by simp)⟩
  | applyOverride o => exact h.applyOverride o
  | setState new => exact ⟨h.known.setState new, hsize (by simp)⟩
  | flush => exact ⟨Queued.clear rt, hsize (by simp)⟩
  | sendNext payload => exact ⟨h.known.sendNext known_stable crc payload, hsize (by simp)⟩
  | reload cfg => exact ⟨h.known, h.size⟩
  | stamp lastRecheck lastStatusDump => exact ⟨h.known, h.size⟩

theorem run (crc : Bytes → UInt32) : ∀ (ops : List SenderOp) {rt : SenderRuntime}, rt.Wf → (SenderOp.run crc rt ops).Wf
  | [], _, h        => h
  | op :: ops, _, h => run crc ops (h.step crc op)

theorem new (cfg : LiveConfig) (ledger : Ledger) (now : Int) (nowSecs : ℚ) : (SenderRuntime.new cfg ledger now nowSecs).Wf :=
  ⟨(fun _ hi => by cases hi), (fun _ hc => by cases hc)⟩

end Wf

/-! ## Sending one item -/

/-- The length of the datagram of chunk `i` of a file, at the chunk size in force. -/
def chunkLen (rt : SenderRuntime) (size : Nat) (i : UInt32) : Nat :=
  HEADER_LEN + min (size - i.toNat * (rt.currentChunkSize - HEADER_LEN)) (rt.currentChunkSize - HEADER_LEN)

section

variable {crc : Bytes → UInt32} {payload : Payload} {rt : SenderRuntime}
  (hok : MIN_CHUNK_SIZE ≤ rt.currentChunkSize ∧ rt.currentChunkSize ≤ MAX_CHUNK_SIZE)

include hok

theorem sendManifest_gone {id : FileId} {name : Text} (hf : payload.files name = none) :
    sendManifest crc payload rt id name = ⟨.error (.failed (.notFound (.text name))), rt, none⟩ := by
  unfold sendManifest
  rw [Chunker.open_none hok hf]

theorem sendManifest_sent (hnet : payload.net.Takes) (hrate : rt.Paced) {id : FileId} {name : Text} {file : Bytes}
    (hf : payload.files name = some file) (hfit : HEADER_LEN + (Utf8.encode name).length ≤ rt.secondsWorth) :
    (sendManifest crc payload rt id name).result = .ok true := by
  have hopen := Chunker.open_some hok hf id
  obtain ⟨rl, heq⟩ := @emit_taken rt payload hnet hrate (Chunker.manifestPacket _ name) crc
    (by rw [length_encode]; exact hfit)
  rw [sendManifest_emit hopen, heq]

theorem sendManifest_long (hrate : rt.Paced) {id : FileId} {name : Text} {file : Bytes}
    (hf : payload.files name = some file) (hlong : ¬ HEADER_LEN + (Utf8.encode name).length ≤ rt.secondsWorth) :
    sendManifest crc payload rt id name = ⟨.error .blocked, rt, none⟩ := by
  rw [sendManifest_emit (Chunker.open_some hok hf id)]
  exact emit_blocked hrate (by rw [length_encode]; exact hlong)

variable {packet : Chunker → UInt32 → Except Error Packet} {mk : RequestedRange → WorkItem} {id : FileId}
  {range : RequestedRange} {rec : FileRecord} (hrec : rt.ledger.get id = some rec)

include hrec

theorem sendRange_gone (hf : payload.files rec.fileName = none) :
    sendRange crc payload packet mk rt id range =
      ⟨.ok false, { rt with ledger := rt.ledger.markGone rec.fileName }, none⟩ := by
  unfold sendRange
  rw [hrec]
  dsimp only
  rw [Chunker.open_none hok hf]

theorem sendRange_out {file : Bytes} (hf : payload.files rec.fileName = some file)
    (hp : ∀ c, ¬ range.start < c.numChunks → packet c range.start = .error (.outOfRange range.start c.numChunks))
    (hlt : ¬ range.start < chunksForSize file.length (rt.currentChunkSize - HEADER_LEN)) :
    ∃ e, sendRange crc payload packet mk rt id range = ⟨.error e, rt, none⟩ := by
  unfold sendRange
  rw [hrec]
  dsimp only
  rw [Chunker.open_some hok hf]
  dsimp only
  rw [hp _ hlt]
  exact ⟨_, rfl⟩

theorem sendRange_sent {file : Bytes} (hnet : payload.net.Takes) (hrate : rt.Paced)
    (hf : payload.files rec.fileName = some file)
    (hp : ∀ c, range.start < c.numChunks → ∃ p, packet c range.start = .ok p ∧ c.Carries range.start p)
    (hlt : range.start < chunksForSize file.length (rt.currentChunkSize - HEADER_LEN))
    (hfit : rt.chunkLen file.length range.start ≤ rt.secondsWorth) :
    (sendRange crc payload packet mk rt id range).result = .ok true := by
  have hopen := Chunker.open_some hok hf id
  obtain ⟨p, hpk, hc⟩ := hp ⟨file, id, rt.currentChunkSize, rt.currentChunkSize - HEADER_LEN,
    chunksForSize file.length (rt.currentChunkSize - HEADER_LEN)⟩ hlt
  obtain ⟨rl, heq⟩ := @sendRange_taken rt crc payload packet mk id range rec hrec _ hopen p hpk hnet hrate
    (by rw [length_encode, hc.length]; exact hfit)
  rw [heq]

theorem sendRange_long {file : Bytes} (hrate : rt.Paced) (hf : payload.files rec.fileName = some file)
    (hp : ∀ c, range.start < c.numChunks → ∃ p, packet c range.start = .ok p ∧ c.Carries range.start p)
    (hlt : range.start < chunksForSize file.length (rt.currentChunkSize - HEADER_LEN))
    (hlong : ¬ rt.chunkLen file.length range.start ≤ rt.secondsWorth) :
    sendRange crc payload packet mk rt id range = ⟨.error .blocked, rt, none⟩ := by
  have hopen := Chunker.open_some hok hf id
  obtain ⟨p, hpk, hc⟩ := hp ⟨file, id, rt.currentChunkSize, rt.currentChunkSize - HEADER_LEN,
    chunksForSize file.length (rt.currentChunkSize - HEADER_LEN)⟩ hlt
  exact @sendRange_blocked rt crc payload packet mk id range rec hrec _ hopen p hpk hrate
    (by rw [length_encode, hc.length]; exact hlong)

end

theorem sendItem_range {item : WorkItem} {range : RequestedRange} (h : item.range? = some range) :
    ∃ (packet : Chunker → UInt32 → Except Error Packet) (mk : RequestedRange → WorkItem),
      (∀ c i, i < c.numChunks → ∃ p, packet c i = .ok p ∧ c.Carries i p) ∧
      (∀ c i, ¬ i < c.numChunks → packet c i = .error (.outOfRange i c.numChunks)) ∧
      ∀ crc payload rt, sendItem crc payload rt item = sendRange crc payload packet mk rt item.fileId range := by
  cases item with
  | manifest id name => cases h
  | data id r =>
    cases h
    refine ⟨_, _, fun c i hi => ?_, fun c i => Chunker.dataPacket_of_not_lt, fun _ _ _ => rfl⟩
    obtain ⟨p, hp⟩ := Chunker.dataPacket_of_lt hi
    exact ⟨p, hp, Chunker.carries_dataPacket hp⟩
  | retransmit id r =>
    cases h
    refine ⟨_, _, fun c i hi => ?_, fun c i => Chunker.retransmitPacket_of_not_lt, fun _ _ _ => rfl⟩
    obtain ⟨p, hp⟩ := Chunker.retransmitPacket_of_lt hi
    exact ⟨p, hp, Chunker.carries_retransmitPacket hp⟩

/-! ## One turn of the main loop -/

/-- The file whose metadata a scan would ask for. -/
def scanned (t : Turn) (rt : SenderRuntime) : Option (DirView × Text) :=
  Scanner.chosen t.view rt.scanDirs rt.cfg.current.sender.includeExtensions rt.cfg.current.sender.skipExtensions rt.ledger

/-- The state and the period call for a scan. -/
def ScanDue (t : Turn) (rt : SenderRuntime) : Prop :=
  (rt.state = .auto ∨ rt.state = .debug) ∧
    rt.cfg.current.sender.recheckPeriodSecs.toNat ≤ elapsedSecs t.now rt.lastRecheck

/-- What a scan leaves: the queue with something new behind it, and the ledger with at most a row more. -/
structure TopsUp (rt rt' : SenderRuntime) : Prop where
  ledger : rt.ledger.Extends rt'.ledger
  queue  : ∃ pushed, rt'.queue.items = rt.queue.items ++ pushed ∧ ∀ i ∈ pushed, rt.ledger.get i.fileId = none

theorem TopsUp.refl (rt : SenderRuntime) : TopsUp rt rt :=
  ⟨.refl _, [], (List.append_nil _).symm, fun _ hi => by cases hi⟩

theorem registerAndPush_new {rt : SenderRuntime} {name : Text} (hnew : rt.ledger.getByName name = none)
    (hseq : rt.ledger.seq < Ledger.MAX_ROWID) (len : UInt64) (created utc : DateTime) : ∃ ack rt',
      rt.registerAndPush name len created false utc = (.ok ack, rt') ∧ TopsUp rt rt' := by
  obtain ⟨id, l, hl, hid, -⟩ := Ledger.upsertFile_new hnew hseq len created rt.cfg.current.sender.imagesPerDark
    rt.cfg.current.sender.imagesPerFlat rt.cfg.current.sender.imagesPerBias (UInt32.ofNat rt.currentChunkSize)
  unfold registerAndPush
  dsimp only
  rw [hl]
  refine ⟨_, _, rfl, (Ledger.upsertFile_ok hl).1.trans (l.extends_markQueued id utc),
    [.manifest id name, .data id ⟨0, rt.totalFor len⟩], ?_, ?_⟩
  · unfold pushFullFile
    simp only [Bool.false_eq_true, if_false, PacketQueue.pushBack_items, List.append_assoc]
    rfl
  · intro i hi
    simp only [List.mem_cons, List.not_mem_nil, or_false] at hi
    rcases hi with rfl | rfl
    · exact hid
    · exact hid

/-- **A scan fails exactly when the file it asks about is gone.** -/
theorem scanForWork_spec {t : Turn} {rt : SenderRuntime} (hseq : rt.ledger.seq < Ledger.MAX_ROWID) :
    TopsUp rt (rt.scanForWork t.view t.utc).2 ∧ ((∃ u, (rt.scanForWork t.view t.utc).1 = .ok u) ↔
      ∀ v p, scanned t rt = some (v, p) → v.metadata p ≠ none) := by
  have hnext := Scanner.nextCandidate_eq t.view rt.scanDirs rt.cfg.current.sender.includeExtensions
    rt.cfg.current.sender.skipExtensions rt.ledger
  unfold scanForWork scanned
  dsimp only
  generalize Scanner.nextCandidate _ _ _ _ _ = next at hnext ⊢
  cases hc : Scanner.chosen t.view rt.scanDirs rt.cfg.current.sender.includeExtensions
      rt.cfg.current.sender.skipExtensions rt.ledger with
  | none =>
    rw [hc] at hnext
    subst hnext
    refine ⟨.refl rt, fun _ v p hvp => ?_, fun _ => ⟨(), rfl⟩⟩
    cases hvp
  | some vp =>
    obtain ⟨v, p⟩ := vp
    rw [hc] at hnext
    unfold Scanner.ask at hnext
    dsimp only at hnext
    cases hm : v.metadata p with
    | none =>
      rw [hm] at hnext
      subst hnext
      refine ⟨.refl rt, fun ⟨u, hu⟩ => ?_, fun h => absurd hm (h v p rfl)⟩
      cases hu
    | some m =>
      obtain ⟨ack, rt', heq, htop⟩ := registerAndPush_new (Scanner.chosenFrom_some hc).1 hseq m.1 m.2 t.utc
      rw [hm] at hnext
      subst hnext
      dsimp only
      rw [heq]
      refine ⟨htop, fun _ v' p' hvp => ?_, fun _ => ⟨(), rfl⟩⟩
      cases hvp
      rw [hm]
      exact Option.some_ne_none m

theorem topUp_spec {t : Turn} {rt : SenderRuntime} (hseq : rt.ledger.seq < Ledger.MAX_ROWID) :
    TopsUp rt (topUp t rt).2 ∧
      ((∃ u, (topUp t rt).1 = .ok u) ↔ (ScanDue t rt → ∀ v p, scanned t rt = some (v, p) → v.metadata p ≠ none)) := by
  unfold topUp
  by_cases hdue : ScanDue t rt
  · have hdue' := hdue
    unfold ScanDue at hdue'
    rw [if_pos hdue']
    obtain ⟨htop, hiff⟩ := @scanForWork_spec t { rt with lastRecheck := t.now } hseq
    exact ⟨⟨htop.ledger, htop.queue⟩, hiff.trans ⟨fun h _ => h, fun h => h hdue⟩⟩
  · have hdue' := hdue
    unfold ScanDue at hdue'
    rw [if_neg hdue']
    exact ⟨.refl rt, fun _ h => absurd h hdue, fun _ => ⟨(), rfl⟩⟩

/-- **A turn that sends nothing** does what its scan does. -/
theorem tick_idle {crc : Bytes → UInt32} {t : Turn} {rt : SenderRuntime} (hdump : t.dump = .ok ())
    (h : (rt.sendNext crc t.payload).result = .ok false) :
    ((∃ b, (rt.tick crc t).result = .ok b) ↔ ∃ u, (topUp t (rt.sendNext crc t.payload).rt).1 = .ok u) ∧
    (rt.tick crc t).rt.queue = (topUp t (rt.sendNext crc t.payload).rt).2.queue ∧
    (rt.tick crc t).rt.ledger = (topUp t (rt.sendNext crc t.payload).rt).2.ledger := by
  unfold tick
  dsimp only
  rw [h]
  dsimp only
  split
  · rename_i e rt' htop
    rw [htop]
    refine ⟨⟨fun ⟨b, hb⟩ => ?_, fun ⟨u, hu⟩ => ?_⟩, rfl, rfl⟩
    · cases hb
    · cases hu
  · rename_i rt' htop
    rw [htop]
    unfold dumpStatus
    rw [hdump]
    split
    · rename_i e rt'' hd
      split at hd
      · cases hd
      · cases hd
    · rename_i rt'' hd
      split at hd
      · cases hd
        exact ⟨⟨fun _ => ⟨(), rfl⟩, fun _ => ⟨false, rfl⟩⟩, rfl, rfl⟩
      · cases hd
        exact ⟨⟨fun _ => ⟨(), rfl⟩, fun _ => ⟨false, rfl⟩⟩, rfl, rfl⟩

theorem tick_sent {crc : Bytes → UInt32} {t : Turn} {rt : SenderRuntime}
    (h : (rt.sendNext crc t.payload).result = .ok true) : rt.tick crc t = rt.sendNext crc t.payload := by
  unfold tick
  dsimp only
  rw [h]

theorem tick_failed {crc : Bytes → UInt32} {t : Turn} {rt : SenderRuntime} {e : Halt}
    (h : (rt.sendNext crc t.payload).result = .error e) : rt.tick crc t = rt.sendNext crc t.payload := by
  unfold tick
  dsimp only
  rw [h]

/-! ## When a turn survives -/

/-- **The turn survives files that vanish**: it succeeds, and if the item it takes belongs to a file that is gone, that
file's row is marked, the item is dropped, and every other item keeps its place. -/
structure TurnSurvives (crc : Bytes → UInt32) (t : Turn) (rt : SenderRuntime) : Prop where
  ok   : ∃ sent, (rt.tick crc t).result = .ok sent
  gone : ∀ item items rec, rt.state ≠ .paused → rt.queue.items = item :: items →
    rt.ledger.get item.fileId = some rec → t.payload.files rec.fileName = none →
    (∃ rec', (rt.tick crc t).rt.ledger.get item.fileId = some rec' ∧ rec'.stillExists = false) ∧
    ∃ pushed, (rt.tick crc t).rt.queue.items = items ++ pushed ∧ ∀ i ∈ pushed, i.fileId ≠ item.fileId

/-- There is nothing to send, or what there is is a range of a file that is gone. -/
def Idle (t : Turn) (rt : SenderRuntime) : Prop :=
  rt.queue.items = [] ∨ ∃ item items range rec, rt.queue.items = item :: items ∧ item.range? = some range ∧
    rt.ledger.get item.fileId = some rec ∧ t.payload.files rec.fileName = none

/-- The head of the queue is no manifest of a file that is gone and no range that starts past its file, its datagram is no
longer than one second's worth of traffic, and the file a scan asks about is still there. -/
structure Passable (t : Turn) (rt : SenderRuntime) : Prop where
  manifest : rt.state ≠ .paused → ∀ id name items, rt.queue.items = .manifest id name :: items →
    t.payload.files name ≠ none ∧ HEADER_LEN + (Utf8.encode name).length ≤ rt.secondsWorth
  range    : rt.state ≠ .paused → ∀ item items range rec file, rt.queue.items = item :: items →
    item.range? = some range → rt.ledger.get item.fileId = some rec → t.payload.files rec.fileName = some file →
    range.start < chunksForSize file.length (rt.currentChunkSize - HEADER_LEN) ∧
    rt.chunkLen file.length range.start ≤ rt.secondsWorth
  scan     : Idle t rt → ScanDue t rt → ∀ v p, scanned t rt = some (v, p) → v.metadata p ≠ none

namespace Wf

variable {crc : Bytes → UInt32} {t : Turn} {rt : SenderRuntime}

/-- A range of a file that is gone: the item goes, the row is marked. -/
theorem sendNext_gone (h : rt.Wf) (hs : rt.state ≠ .paused) {item : WorkItem} {items : List WorkItem}
    (hq : rt.queue.items = item :: items) {range : RequestedRange} (hr : item.range? = some range) {rec : FileRecord}
    (hrec : rt.ledger.get item.fileId = some rec) (hf : t.payload.files rec.fileName = none) :
    rt.sendNext crc t.payload = ⟨.ok false, { rt.taking ⟨items, rt.queue.revision + 1⟩ with
      ledger := rt.ledger.markGone rec.fileName }, none⟩ := by
  obtain ⟨packet, mk, -, -, hsend⟩ := sendItem_range hr
  rw [sendNext_cons crc t.payload hs hq, hsend]
  exact @sendRange_gone crc t.payload (rt.taking ⟨items, rt.queue.revision + 1⟩) h.chunkSize_ok packet mk item.fileId
    range rec hrec hf

theorem sendNext_idle (h : rt.Wf) (hi : Idle t rt) (hs : rt.state ≠ .paused) : ∃ rt',
    rt.sendNext crc t.payload = ⟨.ok false, rt', none⟩ ∧ (ScanDue t rt' ↔ ScanDue t rt) ∧
      scanned t rt' = scanned t rt ∧ rt'.ledger.seq = rt.ledger.seq := by
  rcases hi with hq | ⟨item, items, range, rec, hq, hr, hrec, hf⟩
  · exact ⟨rt, sendNext_nil crc t.payload hq, Iff.rfl, rfl, rfl⟩
  · exact ⟨_, h.sendNext_gone hs hq hr hrec hf, Iff.rfl,
      Scanner.chosenFrom_congr (rt.ledger.isSome_getByName_markGone rec.fileName) 0 rt.scanDirs, rfl⟩

/-- **What an idle turn answers** is what the scan's file decides. -/
theorem tick_idle_iff (h : rt.Wf) (hdump : t.dump = .ok ()) (hseq : rt.ledger.seq < Ledger.MAX_ROWID) (hi : Idle t rt)
    (hs : rt.state ≠ .paused) : (∃ sent, (rt.tick crc t).result = .ok sent) ↔
      (ScanDue t rt → ∀ v p, scanned t rt = some (v, p) → v.metadata p ≠ none) := by
  obtain ⟨rt', heq, hdue, hscan, hseq'⟩ := @sendNext_idle crc t rt h hi hs
  have htick := (@tick_idle crc t rt hdump (by rw [heq])).1
  rw [heq] at htick
  rw [htick, (@topUp_spec t rt' (by rw [hseq']; exact hseq)).2, hdue, hscan]

/-- A turn whose send goes no further does not succeed. -/
theorem not_ok_of_halt {out : Out} {e : Halt} (hok : ∃ sent, (rt.tick crc t).result = .ok sent)
    (h : rt.sendNext crc t.payload = out) : out.result ≠ .error e := by
  subst h
  intro he
  obtain ⟨sent, hsent⟩ := hok
  rw [tick_failed he, he] at hsent
  cases hsent

theorem passable_of_ok (h : rt.Wf) (hdump : t.dump = .ok ()) (hseq : rt.ledger.seq < Ledger.MAX_ROWID)
    (hok : ∃ sent, (rt.tick crc t).result = .ok sent) : Passable t rt := by
  refine ⟨fun hs id name items hq => ?_, fun hs item items range rec file hq hr hrec hf => ?_, fun hi hdue => ?_⟩
  · have hsend := sendNext_cons crc t.payload hs hq
    cases hf : t.payload.files name with
    | none =>
      have hgone := @sendManifest_gone crc t.payload (rt.taking ⟨items, rt.queue.revision + 1⟩) h.chunkSize_ok id name hf
      exact absurd rfl (not_ok_of_halt hok (hsend.trans hgone))
    | some file =>
      refine ⟨Option.some_ne_none file, ?_⟩
      by_contra hlong
      have hblocked := @sendManifest_long crc t.payload (rt.taking ⟨items, rt.queue.revision + 1⟩) h.chunkSize_ok
        (paced_taking _ _) id name file hf hlong
      exact absurd rfl (not_ok_of_halt hok (hsend.trans hblocked))
  · obtain ⟨packet, mk, hin, hout, hsend⟩ := sendItem_range hr
    have hnext := (sendNext_cons crc t.payload hs hq).trans (hsend _ _ _)
    have hlt : range.start < chunksForSize file.length (rt.currentChunkSize - HEADER_LEN) := by
      by_contra hlt
      obtain ⟨e, he⟩ := @sendRange_out crc t.payload (rt.taking ⟨items, rt.queue.revision + 1⟩) h.chunkSize_ok packet mk
        item.fileId range rec hrec file hf (fun c hc => hout c _ hc) hlt
      exact absurd rfl (not_ok_of_halt hok (hnext.trans he))
    refine ⟨hlt, ?_⟩
    by_contra hlong
    have hblocked := @sendRange_long crc t.payload (rt.taking ⟨items, rt.queue.revision + 1⟩) h.chunkSize_ok packet mk
      item.fileId range rec hrec file (paced_taking _ _) hf (fun c hc => hin c _ hc) hlt hlong
    exact absurd rfl (not_ok_of_halt hok (hnext.trans hblocked))
  · have hs : rt.state ≠ .paused := by
      intro hp
      rw [ScanDue, hp] at hdue
      rcases hdue.1 with hd | hd <;> cases hd
    exact (h.tick_idle_iff hdump hseq hi hs).1 hok hdue

theorem survives_of_passable (h : rt.Wf) (hnet : t.payload.net.Takes)
    (hdump : t.dump = .ok ()) (hseq : rt.ledger.seq < Ledger.MAX_ROWID) (hp : Passable t rt) : TurnSurvives crc t rt := by
  by_cases hs : rt.state = .paused
  · -- a paused sender neither sends nor scans
    refine ⟨?_, fun _ _ _ hns => absurd hs hns⟩
    have heq := sendNext_paused crc t.payload hs
    rw [(@tick_idle crc t rt hdump (by rw [heq])).1, heq, (topUp_spec hseq).2]
    intro hdue
    rw [ScanDue, hs] at hdue
    rcases hdue.1 with hd | hd <;> cases hd
  have hidle : Idle t rt → ∃ sent, (rt.tick crc t).result = .ok sent :=
    fun hi => (h.tick_idle_iff hdump hseq hi hs).2 (hp.scan hi)
  cases hq : rt.queue.items with
  | nil =>
    refine ⟨hidle (.inl hq), fun item items rec _ hq' => ?_⟩
    rw [hq] at hq'
    cases hq'
  | cons item items =>
    obtain ⟨rec, hrec, hname⟩ := h.known item (by rw [hq]; exact List.mem_cons_self)
    -- a turn that sends has an item whose file is there
    have hsent : (rt.sendNext crc t.payload).result = .ok true → t.payload.files rec.fileName ≠ none →
        TurnSurvives crc t rt := by
      intro hsend hf
      refine ⟨⟨true, by rw [tick_sent hsend]; exact hsend⟩, fun item' items' rec' _ hq' hrec' hf' => ?_⟩
      rw [hq] at hq'
      cases hq'
      rw [hrec] at hrec'
      cases hrec'
      exact absurd hf' hf
    cases hr : item.range? with
    | none =>
      cases item with
      | data id range => cases hr
      | retransmit id range => cases hr
      | manifest id name =>
        have hn := hname id name rfl
        obtain ⟨hf, hfit⟩ := hp.manifest hs id name items hq
        obtain ⟨file, hfile⟩ := Option.ne_none_iff_exists'.1 hf
        refine hsent ?_ (by rw [← hn]; exact hf)
        rw [sendNext_cons crc t.payload hs hq]
        exact @sendManifest_sent crc t.payload (rt.taking ⟨items, rt.queue.revision + 1⟩) h.chunkSize_ok hnet
          (paced_taking _ _) id name file hfile hfit
    | some range =>
      cases hf : t.payload.files rec.fileName with
      | some file =>
        obtain ⟨packet, mk, hin, -, hsend⟩ := sendItem_range hr
        refine hsent ?_ (by rw [hf]; exact Option.some_ne_none file)
        obtain ⟨hlt, hfit⟩ := hp.range hs item items range rec file hq hr hrec hf
        rw [sendNext_cons crc t.payload hs hq, hsend]
        exact @sendRange_sent crc t.payload (rt.taking ⟨items, rt.queue.revision + 1⟩) h.chunkSize_ok packet mk
          item.fileId range rec hrec file hnet (paced_taking _ _) hf (fun c hc => hin c _ hc) hlt hfit
      | none =>
        refine ⟨hidle (.inr ⟨item, items, range, rec, hq, hr, hrec, hf⟩), fun item' items' rec' _ hq' hrec' _ => ?_⟩
        rw [hq] at hq'
        cases hq'
        rw [hrec] at hrec'
        cases hrec'
        have heq := @sendNext_gone crc t rt h hs _ _ hq _ hr _ hrec hf
        obtain ⟨-, hqueue, hledger⟩ := @tick_idle crc t rt hdump (by rw [heq])
        rw [heq] at hqueue hledger
        obtain ⟨⟨hext, pushed, hpush, hfresh⟩, -⟩ := @topUp_spec t { rt.taking ⟨items, rt.queue.revision + 1⟩ with
          ledger := rt.ledger.markGone rec.fileName } hseq
        have hmark := Ledger.get_markGone hrec
        rw [hqueue, hledger]
        obtain ⟨rec', hrec', -, hgone⟩ := hext _ _ hmark
        refine ⟨⟨rec', hrec', hgone rfl⟩, pushed, hpush, fun i hi hid => ?_⟩
        have hnone := hfresh i hi
        rw [hid, hmark] at hnone
        cases hnone

end Wf

end SenderRuntime

/-- **A turn survives vanished files exactly when** the head of the queue is no manifest of a file that is gone and no
range past its file's end, the limiter lets its datagram go, and the file a scan picks is still there when it asks. -/
theorem tick_survives_iff (crc : Bytes → UInt32) (cfg : LiveConfig) (ledger : Ledger) (now : Int) (nowSecs : ℚ)
    (ops : List SenderOp) (t : SenderRuntime.Turn)
    (hnet : t.payload.net.Takes) (hdump : t.dump = .ok ())
    (hseq : (SenderOp.run crc (SenderRuntime.new cfg ledger now nowSecs) ops).ledger.seq < Ledger.MAX_ROWID) :
    SenderRuntime.TurnSurvives crc t (SenderOp.run crc (SenderRuntime.new cfg ledger now nowSecs) ops) ↔
      SenderRuntime.Passable t (SenderOp.run crc (SenderRuntime.new cfg ledger now nowSecs) ops) := by
  have h := SenderRuntime.Wf.run crc ops (SenderRuntime.Wf.new cfg ledger now nowSecs)
  exact ⟨fun hs => h.passable_of_ok hdump hseq hs.ok, h.survives_of_passable hnet hdump hseq⟩

namespace Forty

/-- A turn in which the file is gone; the scan would find `found`, and it is gone too when asked about. -/
def goneTurn (found : List Text) : SenderRuntime.Turn where
  payload := .ideal (fun _ => none)
  view := fun _ _ => ⟨found, fun _ => false, fun _ => none, fun _ => none⟩
  now := 100 * SECOND
  utc := 0
  dump := .ok ()

end Forty

/-- Half sent, then deleted: the rest is dropped and the row marked. -/
theorem tick_survives_half_sent :
    let rt := SenderOp.run crc32 Forty.start [Forty.setChunkSize 64, Forty.submit, Forty.send, Forty.send]
    rt.queue.items = [.data 1 ⟨1, 1⟩] ∧ SenderRuntime.TurnSurvives crc32 (Forty.goneTurn []) rt := by
  intro rt
  have hq : rt.queue.items = [.data 1 ⟨1, 1⟩] := by decide +kernel
  refine ⟨hq, (tick_survives_iff crc32 .default .empty 0 0 [Forty.setChunkSize 64, Forty.submit, Forty.send, Forty.send]
    (Forty.goneTurn []) (fun _ _ _ => rfl) rfl (by decide +kernel)).2 ⟨?_, ?_, ?_⟩⟩
  · intro _ id name items hm
    have hm' := hq.symm.trans hm
    cases hm'
  · intro _ item items range rec file _ _ _ hf
    cases hf
  · intro _ _ v p hvp
    have hnone : (SenderRuntime.scanned (Forty.goneTurn []) rt).isSome = false := by decide +kernel
    cases (congrArg Option.isSome hvp).symm.trans hnone

/-- **A manifest of a deleted file ends the turn with an error**, and so does a scan whose file is deleted under it. -/
theorem tick_not_survives :
    let rt := SenderOp.run crc32 Forty.start [Forty.submit]
    rt.queue.items = [.manifest 1 "/a".toList, .data 1 ⟨0, 1⟩] ∧
    (rt.tick crc32 (Forty.goneTurn [])).result = .error (.failed (.notFound (.text "/a".toList))) ∧
    (Forty.start.tick crc32 (Forty.goneTurn ["/data/parachuter/queue/b".toList])).result = .error (.failed (.io .other)) ∧
    ¬ SenderRuntime.TurnSurvives crc32 (Forty.goneTurn []) rt := by
  intro rt
  have herr : (rt.tick crc32 (Forty.goneTurn [])).result = .error (.failed (.notFound (.text "/a".toList))) := by decide +kernel
  refine ⟨by decide +kernel, herr, by decide +kernel, fun h => ?_⟩
  obtain ⟨sent, hsent⟩ := h.ok
  rw [herr] at hsent
  cases hsent

end Parachuter
