import Parachuter.Vanished
/-!
# Datagram — how long what is handed to the socket is

A chunk's packet is cut to the chunk size in force; a manifest's is as long as the path in it, whatever the chunk size.  A
datagram is longer than the chunk size exactly when it is the manifest of a path with more bytes than the chunk size leaves
room for behind the header, and the limiter lets it go.
-/
namespace Parachuter

open Blob (Bytes)

/-- **A chunk fits the chunk size** its file was opened with. -/
theorem Chunker.length_encode_le {files : List Char → Option Bytes} {path : List Char} {fileId : FileId} {chunkSize : Nat}
    {c : Chunker} (hok : MIN_CHUNK_SIZE ≤ chunkSize) (hopen : Chunker.open files path fileId chunkSize = .ok c) {i : UInt32}
    {p : Packet} (hp : c.Carries i p) (crc : Bytes → UInt32) : (p.encode crc).length ≤ chunkSize := by
  obtain ⟨file, -, hc⟩ := open_ok hopen
  have hle := hp.payload
  rw [hc] at hle
  dsimp only at hle
  rw [length_encode]
  unfold MIN_CHUNK_SIZE at hok
  omega

namespace SenderRuntime

variable {crc : Bytes → UInt32} {payload : Payload} {rt : SenderRuntime}

/-- What `send_next` hands over fits the chunk size in force, on every network. -/
def SendFits (crc : Bytes → UInt32) (payload : Payload) (rt : SenderRuntime) : Prop :=
  ∀ net, ∀ b ∈ (rt.sendNext crc { payload with net := net }).datagram, b.length ≤ rt.currentChunkSize

/-- The item that is next, if it is the manifest of a file that can be opened and short enough for the limiter to let it go,
has a path that the chunk size in force leaves room for behind the header. -/
def NextFits (files : Text → Option Bytes) (rt : SenderRuntime) : Prop :=
  rt.state ≠ .paused → ∀ id name, rt.queue.items.head? = some (.manifest id name) → (files name).isSome = true →
    HEADER_LEN + (Utf8.encode name).length ≤ rt.secondsWorth → HEADER_LEN + (Utf8.encode name).length ≤ rt.currentChunkSize

theorem sendManifest_datagram {id : FileId} {name : Text} {b : Bytes}
    (h : b ∈ (sendManifest crc payload rt id name).datagram) :
    (payload.files name).isSome = true ∧ b.length = HEADER_LEN + (Utf8.encode name).length ∧
      (rt.Paced → b.length ≤ rt.secondsWorth) := by
  unfold sendManifest at h
  split at h
  · cases h
  · rename_i chunker hopen
    obtain ⟨file, hfile, -⟩ := Chunker.open_ok hopen
    have hb := emit_datagram h
    refine ⟨by rw [hfile]; rfl, by rw [hb, length_encode]; rfl, fun hrate => ?_⟩
    by_contra hlong
    rw [hb] at hlong
    rw [emit_blocked hrate hlong] at h
    cases h

theorem sendRange_datagram {packet : Chunker → UInt32 → Except Error Packet} {mk : RequestedRange → WorkItem} {id : FileId}
    {range : RequestedRange} {b : Bytes} (h : b ∈ (sendRange crc payload packet mk rt id range).datagram) :
    ∃ (rec : FileRecord) (chunker : Chunker) (pkt : Packet), Chunker.open payload.files rec.fileName id
      rt.currentChunkSize = .ok chunker ∧ packet chunker range.start = .ok pkt ∧ b = pkt.encode crc := by
  unfold sendRange at h
  split at h
  · cases h
  rename_i rec _
  split at h
  · cases h
  · cases h
  rename_i chunker hopen
  split at h
  · cases h
  rename_i pkt hpkt
  refine ⟨rec, chunker, pkt, hopen, hpkt, ?_⟩
  dsimp only at h
  split at h
  · exact emit_datagram h
  · split at h
    · exact emit_datagram h
    · exact emit_datagram h

/-- **What is handed over** fits, or is a manifest and as long as its path makes it. -/
theorem sendNext_datagram (hok : MIN_CHUNK_SIZE ≤ rt.currentChunkSize) {b : Bytes}
    (h : b ∈ (rt.sendNext crc payload).datagram) :
    b.length ≤ rt.currentChunkSize ∨ rt.state ≠ .paused ∧ ∃ id name, rt.queue.items.head? = some (.manifest id name) ∧
      (payload.files name).isSome = true ∧ b.length = HEADER_LEN + (Utf8.encode name).length ∧
      b.length ≤ rt.secondsWorth := by
  rcases sendNext_cases crc payload rt with heq | ⟨item, items, hs, hq, heq⟩
  · rw [heq] at h
    cases h
  · rw [heq] at h
    cases item with
    | manifest id name =>
      obtain ⟨hfile, hlen, hrate⟩ := sendManifest_datagram h
      exact .inr ⟨hs, id, name, by rw [hq]; rfl, hfile, hlen, hrate (paced_taking _ _)⟩
    | data id range =>
      obtain ⟨rec, chunker, pkt, hopen, hpkt, rfl⟩ := sendRange_datagram h
      exact .inl (Chunker.length_encode_le hok hopen (Chunker.carries_dataPacket hpkt) crc)
    | retransmit id range =>
      obtain ⟨rec, chunker, pkt, hopen, hpkt, rfl⟩ := sendRange_datagram h
      exact .inl (Chunker.length_encode_le hok hopen (Chunker.carries_retransmitPacket hpkt) crc)

theorem sendNext_manifest (hok : MIN_CHUNK_SIZE ≤ rt.currentChunkSize ∧ rt.currentChunkSize ≤ MAX_CHUNK_SIZE)
    (hs : rt.state ≠ .paused) {id : FileId} {name : Text} (hq : rt.queue.items.head? = some (.manifest id name))
    (hfile : (payload.files name).isSome = true) (hfit : HEADER_LEN + (Utf8.encode name).length ≤ rt.secondsWorth)
    (hnet : payload.net.Takes) : ∃ b ∈ (rt.sendNext crc payload).datagram, b.length = HEADER_LEN + (Utf8.encode name).length := by
  obtain ⟨items, hitems⟩ := List.head?_eq_some_iff.1 hq
  obtain ⟨file, hf⟩ := Option.isSome_iff_exists.1 hfile
  have hopen := Chunker.open_some hok hf id
  obtain ⟨rl, heq⟩ := @emit_taken (rt.taking ⟨items, rt.queue.revision + 1⟩) payload hnet (paced_taking _ _)
    (Chunker.manifestPacket _ name) crc (by rw [length_encode]; exact hfit)
  rw [sendNext_cons crc payload hs hitems, sendItem,
    @sendManifest_emit (rt.taking ⟨items, rt.queue.revision + 1⟩) crc payload id name _ hopen, heq]
  exact ⟨_, rfl, length_encode _ _⟩

theorem sendFits_iff (hok : MIN_CHUNK_SIZE ≤ rt.currentChunkSize ∧ rt.currentChunkSize ≤ MAX_CHUNK_SIZE) :
    rt.SendFits crc payload ↔ rt.NextFits payload.files := by
  constructor
  · intro h hs id name hq hfile hfit
    obtain ⟨b, hb, hlen⟩ := @sendNext_manifest crc { payload with net := (Payload.ideal payload.files).net } rt hok hs id name
      hq hfile hfit (fun _ _ _ => rfl)
    rw [← hlen]
    exact h _ b hb
  · intro h net b hb
    rcases sendNext_datagram hok.1 hb with hle | ⟨hs, id, name, hq, hfile, hlen, hrate⟩
    · exact hle
    · rw [hlen] at hrate ⊢
      exact h hs id name hq hfile hrate

/-- **The receiver's buffer** has room for every datagram: the system takes no path that would be too long for it. -/
theorem sendNext_datagram_le (hok : MIN_CHUNK_SIZE ≤ rt.currentChunkSize ∧ rt.currentChunkSize ≤ MAX_CHUNK_SIZE)
    (hpath : payload.PathsShort) {b : Bytes} (h : b ∈ (rt.sendNext crc payload).datagram) : b.length ≤ MAX_CHUNK_SIZE := by
  rcases sendNext_datagram hok.1 h with hle | ⟨-, id, name, -, hfile, hlen, -⟩
  · exact Nat.le_trans hle hok.2
  · obtain ⟨file, hf⟩ := Option.isSome_iff_exists.1 hfile
    have hshort := hpath name file hf
    simp only [HEADER_LEN, MAX_CHUNK_SIZE, PATH_MAX] at *
    omega

end SenderRuntime

/-- **When a datagram fits the chunk size.**  In every run of the sender, whatever was submitted, requested, scanned and set
before, what a `send_next` hands over is at most the chunk size in force, on every network, exactly if the item it takes meets
`NextFits`; and with paths as long as the system takes them it always fits the receiver's buffer. -/
theorem datagram_fits_iff (crc : Bytes → UInt32) (cfg : LiveConfig) (ledger : Ledger) (now : Int) (nowSecs : ℚ)
    (ops : List SenderOp) (payload : Payload) :
    ((SenderOp.run crc (.new cfg ledger now nowSecs) ops).SendFits crc payload ↔
      (SenderOp.run crc (.new cfg ledger now nowSecs) ops).NextFits payload.files) ∧
    (payload.PathsShort → ∀ net,
      ∀ b ∈ ((SenderOp.run crc (.new cfg ledger now nowSecs) ops).sendNext crc { payload with net := net }).datagram,
        b.length ≤ MAX_CHUNK_SIZE) := by
  have hok := (SenderRuntime.Wf.run crc ops (SenderRuntime.Wf.new cfg ledger now nowSecs)).chunkSize_ok
  refine ⟨SenderRuntime.sendFits_iff hok, fun hpath net b hb => ?_⟩
  exact @SenderRuntime.sendNext_datagram_le crc { payload with net := net } _ hok hpath b hb

namespace Long

/-- A path of one letter more than the smallest chunk size leaves room for. -/
def name : Text := '/' :: List.replicate 32 'a'

def files (path : Text) : Option Bytes := if path = name then some [7] else none

/-- The chunk size is set to the smallest, and the file submitted. -/
def ops : List SenderOp := [Forty.setChunkSize 64, .submit (fun _ => .ok ⟨true, 1, 0⟩) none name false 0]

theorem pathsShort : (Payload.ideal files).PathsShort := by
  intro path b h
  simp only [Payload.ideal, files] at h
  split at h
  · rename_i hp
    rw [hp]
    decide +kernel
  · cases h

end Long

/-- The forty bytes of `/a` at the smallest chunk size: its manifest fits. -/
theorem datagram_fits_short :
    (SenderOp.run crc32 Forty.start [Forty.setChunkSize 64, Forty.submit]).SendFits crc32 (.ideal Forty.files) ∧
    ∀ b ∈ ((SenderOp.run crc32 Forty.start [Forty.setChunkSize 64, Forty.submit]).sendNext crc32 (.ideal Forty.files)).datagram,
      b.length ≤ MAX_CHUNK_SIZE := by
  have h := datagram_fits_iff crc32 .default .empty 0 0 [Forty.setChunkSize 64, Forty.submit] (.ideal Forty.files)
  refine ⟨h.1.2 ?_, h.2 Forty.pathsShort (Payload.ideal Forty.files).net⟩
  intro _ id name hq _ _
  have hfront : (SenderOp.run crc32 Forty.start [Forty.setChunkSize 64, Forty.submit]).queue.items.head? =
      some (.manifest 1 "/a".toList) := by decide +kernel
  cases hfront.symm.trans hq
  decide +kernel

/-- **A path of 33 bytes at the smallest chunk size**: the manifest is a datagram of 65. -/
theorem datagram_too_long : (Payload.ideal Long.files).PathsShort ∧
    (SenderOp.run crc32 Forty.start Long.ops).currentChunkSize = 64 ∧
    (∃ b ∈ ((SenderOp.run crc32 Forty.start Long.ops).sendNext crc32 (.ideal Long.files)).datagram, b.length = 65) ∧
    ¬ (SenderOp.run crc32 Forty.start Long.ops).SendFits crc32 (.ideal Long.files) := by
  have hsize : (SenderOp.run crc32 Forty.start Long.ops).currentChunkSize = 64 := by decide +kernel
  have hfront : (SenderOp.run crc32 Forty.start Long.ops).queue.items.head? = some (.manifest 1 Long.name) := by
    decide +kernel
  obtain ⟨b, hb, hlen⟩ := @SenderRuntime.sendNext_manifest crc32 (.ideal Long.files)
    (SenderOp.run crc32 Forty.start Long.ops) (by rw [hsize]; decide) (by decide +kernel) 1 Long.name hfront (by decide)
    (by decide +kernel) (fun _ _ _ => rfl)
  have hlen' : b.length = 65 := hlen.trans (by decide +kernel)
  refine ⟨Long.pathsShort, hsize, ⟨b, hb, hlen'⟩, fun h => ?_⟩
  have hle := h (Payload.ideal Long.files).net b hb
  rw [hlen', hsize] at hle
  exact absurd hle (by decide)

end Parachuter
