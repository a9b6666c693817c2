import Parachuter.Chunker
import Parachuter.Manifest
/-!
# The reassembler (`reassembler.rs`) and the receive loop's step (`receiver.rs`)

`ingest` applies one packet to the holding directory and `finalize` moves a complete assembly out of it.  `ingest_chunk` is cut
into its stages: `ingestChunk` opens or cold-starts the sidecar, `ingestInto` checks the count and patches the payload
size, `writeData` writes the data file, `markChunk` sets the bit.  `receive` is one turn of `receive_loop`.  The lemmas
`exec_*` say what each stage does on a disk without faults.
-/
namespace Parachuter

open Blob (Bytes)
open Calls (Res)

inductive IngestOutcome
  | accepted
  | duplicate
  | complete
  | mismatched
  | ignored
  deriving DecidableEq, Repr

structure AssemblyStats where
  chunksTotal    : UInt32
  chunksReceived : UInt32
  hasName        : Bool
  deriving DecidableEq, Repr

/-- `u32::saturating_sub`. -/
def saturatingSub (a b : UInt32) : UInt32 := if b ≤ a then a - b else 0

namespace Reassembler

variable (crc : Bytes → UInt32)

/-! ## Ingesting a packet -/

def growTo (f : HoldingFile) (neededMin : Nat) : Fs Unit := do
  let len ← io (.length f)
  if len < neededMin then io (.setLen f neededMin) else pure ()

/-- The packet flagged last locks the file's size in. -/
def lockSize (pkt : Packet) (realSize : Nat) (m : Manifest) : Fs Manifest :=
  if pkt.flags.isLast then do
    io (.setLen (.incoming pkt.fileId) realSize)
    io (.sync (.incoming pkt.fileId))
    pure { m with fileSizeHint := UInt64.ofNat realSize }
  else pure m

/-- Open or create the data file, grow it to hold the chunk and write the chunk. -/
def writeData (pkt : Packet) (m : Manifest) : Fs Manifest := do
  let payload := m.chunkPayloadSize.toNat
  let neededMin := pkt.chunkId.toNat * payload + pkt.payload.length
  io (.openData (.incoming pkt.fileId))
  growTo (.incoming pkt.fileId) neededMin
  io (.writeAt (.incoming pkt.fileId) (pkt.chunkId.toNat * payload) pkt.payload)
  io (.sync (.incoming pkt.fileId))
  lockSize pkt neededMin m

/-- `Complete` when every chunk and the name are there. -/
def outcome (m : Manifest) : Fs IngestOutcome :=
  match m.isComplete with
  | none   => .panic
  | some c => .ret (if c && !m.name.isEmpty then .complete else .accepted)

def markChunk (pkt : Packet) (m : Manifest) : Fs IngestOutcome :=
  if m.isSet pkt.chunkId then pure .duplicate
  else do
    (m.set pkt.chunkId).save crc pkt.fileId
    outcome (m.set pkt.chunkId)

def storeChunk (pkt : Packet) (m : Manifest) : Fs IngestOutcome := do
  let m ← writeData pkt m
  markChunk crc pkt m

/-- The rest of `ingest_chunk`, once there is a sidecar: its count must be the packet's, and a payload size of 0, left
by a name that came first, is patched from this chunk. -/
def ingestInto (pkt : Packet) (m : Manifest) : Fs IngestOutcome :=
  if m.numChunks ≠ pkt.numChunks then pure .mismatched
  else if m.chunkPayloadSize = 0 then
    if pkt.flags.isLast && 1 < pkt.numChunks then pure .mismatched
    else do
      let m := { m with chunkPayloadSize := UInt32.ofNat pkt.payload.length }
      m.save crc pkt.fileId
      storeChunk crc pkt m
  else storeChunk crc pkt m

def ingestChunk (pkt : Packet) : Fs IngestOutcome := do
  match ← (Manifest.open crc pkt.fileId).attempt with
  | .ok m                => ingestInto crc pkt m
  | .error (.notFound _) =>
    -- the tail of a multi-chunk file does not tell the payload size: wait for another chunk
    if pkt.flags.isLast && 1 < pkt.numChunks then pure .mismatched
    else do
      let m ← Manifest.create crc pkt.fileId (UInt32.ofNat pkt.payload.length) pkt.numChunks []
      ingestInto crc pkt m
  | .error e             => .err e

/-- The rest of `ingest_manifest`, once there is a sidecar. -/
def nameInto (pkt : Packet) (pathStr : List Char) (m : Manifest) : Fs IngestOutcome :=
  if m.numChunks ≠ pkt.numChunks then pure .mismatched
  else if m.name.isEmpty then do
    let m := { m with name := pathStr }
    m.save crc pkt.fileId
    outcome m
  else outcome m

def ingestManifest (pkt : Packet) : Fs IngestOutcome := do
  let pathStr := Utf8.decodeLossy pkt.payload
  match ← (Manifest.open crc pkt.fileId).attempt with
  | .ok m                => nameInto crc pkt pathStr m
  | .error (.notFound _) => do
    let m ← Manifest.create crc pkt.fileId 0 pkt.numChunks pathStr
    nameInto crc pkt pathStr m
  | .error e             => .err e

def ingest (pkt : Packet) : Fs IngestOutcome :=
  match pkt.ptype with
  | .data | .retransmit   => ingestChunk crc pkt
  | .manifest | .nameOnly => ingestManifest crc pkt
  | .heartbeat            => .ret .ignored

/-! ## Finalising -/

/-- Try a rename; across file systems, copy and remove. -/
def moveInto (id : FileId) (dest : Path) : Fs Unit := do
  match ← (io (.rename (.incoming id) dest)).attempt with
  | .ok _    => pure ()
  | .error _ => do
    io (.copy (.incoming id) dest)
    io (.remove (.incoming id))

def createParent (dest : Path) : Fs Unit := if dest = [] then pure () else io (.createDirAll dest.dropLast)

def publish (id : FileId) (dest : Path) : Fs Path := do
  createParent dest
  moveInto id dest
  io (.remove (.manifest id))
  pure dest

def finalize (finals : Path) (id : FileId) : Fs Path := do
  let m ← Manifest.open crc id
  match m.isComplete with
  | none       => .panic
  | some false => .err (.badManifest "finalize before complete")
  | some true  =>
    if m.name.isEmpty then .err (.badManifest "missing filename")
    else publish id (groundPath finals m.name)

/-! ## What the cleaner reads -/

def missingRanges (id : FileId) : Fs (List (UInt32 × UInt32)) := do
  let m ← Manifest.open crc id
  pure m.missingRanges

def hasName (id : FileId) : Fs Bool := do
  let m ← Manifest.open crc id
  pure (!m.name.isEmpty)

/-- `stats`: the sum over the ranges is in `u32`. -/
def stats (id : FileId) : Fs AssemblyStats := do
  let m ← Manifest.open crc id
  let missing := (m.missingRanges.map Prod.snd).sum
  pure ⟨m.numChunks, saturatingSub m.numChunks missing, !m.name.isEmpty⟩

/-! ## The stages of an ingest without faults -/

variable {crc}

/-- The sidecar after the data is written. -/
def hinted (pkt : Packet) (m : Manifest) : Manifest :=
  if pkt.flags.isLast then
    { m with fileSizeHint := UInt64.ofNat (pkt.chunkId.toNat * m.chunkPayloadSize.toNat + pkt.payload.length) }
  else m

@[simp] theorem bitmap_hinted (pkt : Packet) (m : Manifest) : (hinted pkt m).bitmap = m.bitmap := by
  unfold hinted
  split <;> rfl

@[simp] theorem numChunks_hinted (pkt : Packet) (m : Manifest) : (hinted pkt m).numChunks = m.numChunks := by
  unfold hinted
  split <;> rfl

@[simp] theorem isSet_hinted (pkt : Packet) (m : Manifest) (i : UInt32) : (hinted pkt m).isSet i = m.isSet i := by
  simp [Manifest.isSet]

/-- The data file after the data is written. -/
def placed (pkt : Packet) (m : Manifest) (d : Disk) : Bytes :=
  Blob.place ((d.get (.incoming pkt.fileId)).getD []) (pkt.chunkId.toNat * m.chunkPayloadSize.toNat) pkt.payload
    pkt.flags.isLast

theorem exec_growTo {d : Disk} {f : HoldingFile} {b : Bytes} {n : Nat} (h : d.get f = some b) (hn : n ≤ FsCall.OFFSET_MAX) :
    (growTo f n).exec d = (.ok (), d.put f (if b.length < n then Blob.setLen b n else b)) := by
  rw [growTo, Calls.exec_bind, exec_length h, Calls.andThen_ok]
  split
  · exact exec_setLen h hn
  · rw [Disk.put_of_get h]; rfl

theorem exec_lockSize {pkt : Packet} {m : Manifest} {d : Disk} {b : Bytes} {n : Nat} (h : d.get (.incoming pkt.fileId) = some b)
    (hn : n ≤ FsCall.OFFSET_MAX) : (lockSize pkt n m).exec d =
      (.ok (if pkt.flags.isLast then { m with fileSizeHint := UInt64.ofNat n } else m),
        d.put (.incoming pkt.fileId) (if pkt.flags.isLast then Blob.setLen b n else b)) := by
  unfold lockSize
  split
  · rw [Calls.exec_bind, exec_setLen h hn, Calls.andThen_ok, Calls.exec_bind, exec_sync, Calls.andThen_ok]
    rfl
  · rw [Disk.put_of_get h]; rfl

theorem exec_writeData_open {pkt : Packet} {m : Manifest} {d : Disk} {b : Bytes}
    (h : d.get (.incoming pkt.fileId) = some b)
    (hn : pkt.chunkId.toNat * m.chunkPayloadSize.toNat + pkt.payload.length ≤ FsCall.OFFSET_MAX) :
    (writeData pkt m).exec d = (.ok (hinted pkt m), d.put (.incoming pkt.fileId) (placed pkt m d)) := by
  simp only [writeData]
  rw [Calls.exec_bind, exec_openData_some h, Calls.andThen_ok, Calls.exec_bind, exec_growTo h hn, Calls.andThen_ok,
    Calls.exec_bind, exec_writeAt (Disk.get_put_self _ _ _) (Nat.le_trans (Nat.le_add_right _ _) hn), Calls.andThen_ok,
    Calls.exec_bind, exec_sync, Calls.andThen_ok, exec_lockSize (Disk.get_put_self _ _ _) hn, Disk.put_put, Disk.put_put]
  simp only [hinted, placed, Blob.place, h, Option.getD_some]

/-- **Writing the data**: the chunk is placed in the data file, which is created if missing. -/
theorem exec_writeData {pkt : Packet} {m : Manifest} {d : Disk}
    (hn : pkt.chunkId.toNat * m.chunkPayloadSize.toNat + pkt.payload.length ≤ FsCall.OFFSET_MAX) :
    (writeData pkt m).exec d = (.ok (hinted pkt m), d.put (.incoming pkt.fileId) (placed pkt m d)) := by
  cases h : d.get (.incoming pkt.fileId) with
  | some b => exact exec_writeData_open h hn
  | none =>
    -- opening creates an empty file, and the rest is the other case on it
    have hnil := @exec_writeData_open pkt m (d.put (.incoming pkt.fileId) []) [] (Disk.get_put_self _ _ _) hn
    have hp : placed pkt m (d.put (.incoming pkt.fileId) []) = placed pkt m d := by
      simp only [placed, Disk.get_put_self, h, Option.getD_some, Option.getD_none]
    rw [Disk.put_put, hp] at hnil
    rw [← hnil]
    simp only [writeData]
    rw [Calls.exec_bind, exec_openData_none h, Calls.exec_bind, exec_openData_some (Disk.get_put_self _ _ _)]

/-- **Ingesting a chunk** under the sidecar that is there, -/
theorem exec_ingestChunk_some {pkt : Packet} {m : Manifest} {d : Disk} {buf : Bytes}
    (hm : d.get (.manifest pkt.fileId) = some buf) (hparse : Manifest.parse crc buf = .ok m) :
    (ingestChunk crc pkt).exec d = (ingestInto crc pkt m).exec d := by
  unfold ingestChunk
  rw [Calls.exec_bind, Calls.exec_attempt, Manifest.exec_open_some hm hparse]
  rfl

/-- and under the one it starts. -/
theorem exec_ingestChunk_none {pkt : Packet} {d : Disk} (hnone : d.get (.manifest pkt.fileId) = none) :
    (ingestChunk crc pkt).exec d = if pkt.flags.isLast && 1 < pkt.numChunks then (.ok .mismatched, d) else
      (ingestInto crc pkt ⟨UInt32.ofNat pkt.payload.length, pkt.numChunks, 0, [],
          List.replicate (Manifest.bitmapLen pkt.numChunks) 0⟩).exec
        (Manifest.saved crc pkt.fileId ⟨UInt32.ofNat pkt.payload.length, pkt.numChunks, 0, [],
          List.replicate (Manifest.bitmapLen pkt.numChunks) 0⟩ d) := by
  unfold ingestChunk
  rw [Calls.exec_bind, Calls.exec_attempt, Manifest.exec_open_none hnone]
  simp only [Calls.reify_err, Calls.andThen_ok]
  split
  · rfl
  · rw [Calls.exec_bind, Manifest.create, Calls.exec_bind, Manifest.exec_save]
    rfl

/-- **Ingesting a manifest**, likewise. -/
theorem exec_ingestManifest_some {pkt : Packet} {m : Manifest} {d : Disk} {buf : Bytes}
    (hm : d.get (.manifest pkt.fileId) = some buf) (hparse : Manifest.parse crc buf = .ok m) :
    (ingestManifest crc pkt).exec d = (nameInto crc pkt (Utf8.decodeLossy pkt.payload) m).exec d := by
  unfold ingestManifest
  rw [Calls.exec_bind, Calls.exec_attempt, Manifest.exec_open_some hm hparse]
  rfl

theorem exec_ingestManifest_none {pkt : Packet} {d : Disk} (hnone : d.get (.manifest pkt.fileId) = none) :
    (ingestManifest crc pkt).exec d =
      (nameInto crc pkt (Utf8.decodeLossy pkt.payload) ⟨0, pkt.numChunks, 0, Utf8.decodeLossy pkt.payload,
          List.replicate (Manifest.bitmapLen pkt.numChunks) 0⟩).exec
        (Manifest.saved crc pkt.fileId ⟨0, pkt.numChunks, 0, Utf8.decodeLossy pkt.payload,
          List.replicate (Manifest.bitmapLen pkt.numChunks) 0⟩ d) := by
  unfold ingestManifest
  rw [Calls.exec_bind, Calls.exec_attempt, Manifest.exec_open_none hnone]
  simp only [Calls.reify_err, Calls.andThen_ok]
  rw [Calls.exec_bind, Manifest.create, Calls.exec_bind, Manifest.exec_save]
  rfl

/-- **A chunk that is marked already** is answered `duplicate`, whatever bytes it brings. -/
theorem ingestChunk_marked {pkt : Packet} {m : Manifest} {d : Disk} {buf : Bytes}
    (hm : d.get (.manifest pkt.fileId) = some buf) (hparse : Manifest.parse crc buf = .ok m)
    (hnum : m.numChunks = pkt.numChunks) (hz : m.chunkPayloadSize ≠ 0) (hset : m.isSet pkt.chunkId = true)
    (hn : pkt.chunkId.toNat * m.chunkPayloadSize.toNat + pkt.payload.length ≤ FsCall.OFFSET_MAX) :
    ((ingestChunk crc pkt).exec d).1 = .ok .duplicate := by
  have hmark : ∀ d', ((markChunk crc pkt (hinted pkt m)).exec d').1 = .ok .duplicate := by
    intro d'
    unfold markChunk
    rw [if_pos (by rw [isSet_hinted]; exact hset)]
    rfl
  rw [exec_ingestChunk_some hm hparse]
  unfold ingestInto
  rw [if_neg (not_not.2 hnum), if_neg hz, storeChunk, Calls.exec_bind, exec_writeData hn, Calls.andThen_ok]
  exact hmark _

theorem exec_outcome {m : Manifest} {c : Bool} (d : Disk) (h : m.isComplete = some c) :
    (outcome m).exec d = (.ok (if c && !m.name.isEmpty then .complete else .accepted), d) := by
  simp only [outcome, h]; rfl

/-- **A packet of another chunk count is turned away**, and nothing is written. -/
theorem ingest_mismatched {pkt : Packet} {m : Manifest} {d : Disk} {buf : Bytes}
    (hm : d.get (.manifest pkt.fileId) = some buf) (hparse : Manifest.parse crc buf = .ok m)
    (hnum : m.numChunks ≠ pkt.numChunks) (htype : pkt.ptype ≠ .heartbeat) :
    (ingest crc pkt).exec d = (.ok .mismatched, d) := by
  have hchunk : (ingestChunk crc pkt).exec d = (.ok .mismatched, d) := by
    rw [exec_ingestChunk_some hm hparse]
    unfold ingestInto
    rw [if_pos hnum]
    rfl
  have hname : (ingestManifest crc pkt).exec d = (.ok .mismatched, d) := by
    rw [exec_ingestManifest_some hm hparse]
    unfold nameInto
    rw [if_pos hnum]
    rfl
  unfold ingest
  cases ht : pkt.ptype with
  | data => exact hchunk
  | retransmit => exact hchunk
  | manifest => exact hname
  | nameOnly => exact hname
  | heartbeat => exact absurd ht htype

/-- An answer that something was taken. -/
def Taken (o : Res Error IngestOutcome) : Prop := o = .ok .accepted ∨ o = .ok .complete

theorem taken_outcome {m : Manifest} (d : Disk) (hb : m.bitmap.length = Manifest.bitmapLen m.numChunks)
    (hn : m.numChunks.toNat ≤ 2 ^ 32 - 8) : Taken ((outcome m).exec d).1 := by
  rw [exec_outcome d (Manifest.isComplete_eq m hb hn)]
  dsimp only
  split
  · exact .inr rfl
  · exact .inl rfl

/-- **A manifest of the sidecar's chunk count is taken.** -/
theorem taken_ingestManifest {pkt : Packet} {m : Manifest} {d : Disk} {buf : Bytes}
    (hm : d.get (.manifest pkt.fileId) = some buf) (hparse : Manifest.parse crc buf = .ok m)
    (hnum : m.numChunks = pkt.numChunks) (hb : m.bitmap.length = Manifest.bitmapLen m.numChunks)
    (hn : m.numChunks.toNat ≤ 2 ^ 32 - 8) : Taken ((ingestManifest crc pkt).exec d).1 := by
  rw [exec_ingestManifest_some hm hparse]
  unfold nameInto
  rw [if_neg (not_not.2 hnum)]
  split
  · rw [Calls.exec_bind, Manifest.exec_save, Calls.andThen_ok]
    exact taken_outcome _ hb hn
  · exact taken_outcome _ hb hn

/-- **Storing a chunk**: the data is placed; a chunk marked already is a duplicate, and any other is marked and saved. -/
theorem exec_storeChunk {pkt : Packet} {m : Manifest} {d : Disk}
    (hoff : pkt.chunkId.toNat * m.chunkPayloadSize.toNat + pkt.payload.length ≤ FsCall.OFFSET_MAX) :
    (storeChunk crc pkt m).exec d =
      if m.isSet pkt.chunkId then (.ok .duplicate, d.put (.incoming pkt.fileId) (placed pkt m d))
      else (outcome ((hinted pkt m).set pkt.chunkId)).exec
        (((hinted pkt m).set pkt.chunkId).saved crc pkt.fileId (d.put (.incoming pkt.fileId) (placed pkt m d))) := by
  rw [storeChunk, Calls.exec_bind, exec_writeData hoff, Calls.andThen_ok, markChunk, isSet_hinted]
  split
  · rfl
  · rw [Calls.exec_bind, Manifest.exec_save, Calls.andThen_ok]

theorem taken_storeChunk {pkt : Packet} {m : Manifest} {d : Disk} (hclear : m.isSet pkt.chunkId = false)
    (hb : m.bitmap.length = Manifest.bitmapLen m.numChunks) (hn : m.numChunks.toNat ≤ 2 ^ 32 - 8)
    (hoff : pkt.chunkId.toNat * m.chunkPayloadSize.toNat + pkt.payload.length ≤ FsCall.OFFSET_MAX) :
    Taken ((storeChunk crc pkt m).exec d).1 := by
  rw [exec_storeChunk hoff, hclear, if_neg Bool.false_ne_true]
  refine taken_outcome _ ?_ ?_
  · simpa [Manifest.set] using hb
  · simpa [Manifest.set] using hn

theorem toNat_ofNat_lt {n k : Nat} (h : n < k) : (UInt32.ofNat n).toNat < k := by
  rw [UInt32.toNat_ofNat']
  exact Nat.lt_of_le_of_lt (Nat.mod_le _ _) h

/-- The end of a chunk is an offset a file can have, while payloads stay below a gigabyte. -/
theorem offset_le {pkt : Packet} {n : Nat} (hn : n < 2 ^ 30) (hlen : pkt.payload.length < 2 ^ 30) :
    pkt.chunkId.toNat * n + pkt.payload.length ≤ FsCall.OFFSET_MAX := by
  have h1 := Nat.mul_le_mul (Nat.le_of_lt pkt.chunkId.toNat_lt) (Nat.le_of_lt hn)
  unfold FsCall.OFFSET_MAX
  omega

/-- **A chunk that is not marked is taken**, unless it is the last of several and the payload size is not known. -/
theorem taken_ingestChunk {pkt : Packet} {m : Manifest} {d : Disk} {buf : Bytes}
    (hm : d.get (.manifest pkt.fileId) = some buf) (hparse : Manifest.parse crc buf = .ok m)
    (hnum : m.numChunks = pkt.numChunks) (hb : m.bitmap.length = Manifest.bitmapLen m.numChunks)
    (hn : m.numChunks.toNat ≤ 2 ^ 32 - 8) (hclear : m.isSet pkt.chunkId = false)
    (hfirst : m.chunkPayloadSize = 0 → (pkt.flags.isLast && decide (1 < pkt.numChunks)) = false)
    (hlen : pkt.payload.length < 2 ^ 30) (hsize : m.chunkPayloadSize.toNat < 2 ^ 30) :
    Taken ((ingestChunk crc pkt).exec d).1 := by
  rw [exec_ingestChunk_some hm hparse]
  unfold ingestInto
  rw [if_neg (not_not.2 hnum)]
  split
  · rename_i hz
    rw [hfirst hz, if_neg Bool.false_ne_true, Calls.exec_bind, Manifest.exec_save, Calls.andThen_ok]
    exact taken_storeChunk hclear hb hn (offset_le (toNat_ofNat_lt hlen) hlen)
  · exact taken_storeChunk hclear hb hn (offset_le hsize hlen)

end Reassembler

/-! ## One turn of the receive loop -/

/-- Errors of `ingest` and of `finalize` are logged and the loop goes on; a panic ends it. -/
def receivePacket (crc : Bytes → UInt32) (finals : Path) (pkt : Packet) : Fs Unit := do
  match ← (Reassembler.ingest crc pkt).attempt with
  | .ok .complete => do
    let _ ← (Reassembler.finalize crc finals pkt.fileId).attempt
    pure ()
  | _ => pure ()

/-- One datagram: the socket's buffer keeps its first `MAX_CHUNK_SIZE` bytes, and a bad packet is dropped. -/
def receive (crc : Bytes → UInt32) (finals : Path) (datagram : Bytes) : Fs Unit :=
  match Packet.decode crc (datagram.take MAX_CHUNK_SIZE) with
  | .ok pkt  => receivePacket crc finals pkt
  | .error _ => pure ()

/-- The disk after a packet: finalised when the ingest says so, and whatever the finalise returns. -/
theorem receivePacket_snd (crc : Bytes → UInt32) (finals : Path) (pkt : Packet) (d : Disk) :
    ((receivePacket crc finals pkt).exec d).2 =
      match (Reassembler.ingest crc pkt).exec d with
      | (.ok .complete, d') => ((Reassembler.finalize crc finals pkt.fileId).exec d').2
      | (_, d')             => d' := by
  obtain ⟨r, d', hi⟩ : ∃ r d', (Reassembler.ingest crc pkt).exec d = (r, d') := ⟨_, _, rfl⟩
  rw [receivePacket, Calls.exec_bind, Calls.exec_attempt, hi]
  cases r with
  | ok o =>
    cases o with
    | complete =>
      simp only [Calls.reify_ok, Calls.andThen_ok, Calls.exec_bind, Calls.exec_attempt]
      cases (Reassembler.finalize crc finals pkt.fileId).exec d' with
      | mk r d'' => cases r <;> rfl
    | accepted => rfl
    | duplicate => rfl
    | mismatched => rfl
    | ignored => rfl
  | err e => rfl
  | panic => rfl
  | crash => rfl

theorem receivePacket_ok {crc : Bytes → UInt32} {finals : Path} {pkt : Packet} {d d' : Disk} {o : IngestOutcome}
    (h : (Reassembler.ingest crc pkt).exec d = (.ok o, d')) : ((receivePacket crc finals pkt).exec d).2 =
      if o = .complete then ((Reassembler.finalize crc finals pkt.fileId).exec d').2 else d' := by
  rw [receivePacket_snd, h]
  cases o <;> rfl

/-- A packet is taken from its datagram if the datagram fits the buffer. -/
theorem exec_receive_encode (crc : Bytes → UInt32) (finals : Path) {pkt : Packet} (h : pkt.payload.length < 2 ^ 32)
    (d : Disk) : (receive crc finals (pkt.encode crc)).exec d =
      if (pkt.encode crc).length ≤ MAX_CHUNK_SIZE then (receivePacket crc finals pkt).exec d else (.ok (), d) := by
  unfold receive
  rw [decode_take_encode crc pkt h MAX_CHUNK_SIZE (by decide)]
  by_cases hfit : (pkt.encode crc).length ≤ MAX_CHUNK_SIZE
  · rw [if_pos hfit, if_pos hfit]
  · rw [if_neg hfit, if_neg hfit]
    rfl

end Parachuter
