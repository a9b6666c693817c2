import Parachuter.Ground
import Parachuter.Pending
/-!
# Downlink — both daemons and a link that may do anything

A `Downlink` is the sender, every datagram it ever handed over and the disk of the ground.  A turn of the receive loop
takes any of these datagrams, the first time or again, or bytes that are no packet: the link may lose, repeat, reorder
and garble.  The sender meets every operation there is, and restarts with what its ledger has; payload files may come
and go, with the contents `files` gives them.  Every datagram is a packet of a row of the ledger (`Ledger.Sends`), rows
keep their id and name, and so the ground only ever holds the files of rows.
-/
namespace Parachuter

open Blob (Bytes)

structure Downlink where
  rt   : SenderRuntime
  sent : List Bytes
  disk : Disk

inductive DownlinkStep
  | op (op : SenderOp)
  | restart (cfg : LiveConfig) (now : Int) (nowSecs : ℚ)
  | arrive (k : Nat)
  | noise (datagram : Bytes)

namespace DownlinkStep

def apply (crc : Bytes → UInt32) (finals : Path) (w : Downlink) : DownlinkStep → Downlink
  | .op o                    => { w with rt := o.apply crc w.rt, sent := w.sent ++ (o.datagram crc w.rt).toList }
  | .restart cfg now nowSecs => { w with rt := .new cfg w.rt.ledger now nowSecs }
  | .arrive k                =>
    match w.sent[k]? with
    | none          => w
    | some datagram => { w with disk := ((receive crc finals datagram).exec w.disk).2 }
  | .noise datagram          => { w with disk := ((receive crc finals datagram).exec w.disk).2 }

def run (crc : Bytes → UInt32) (finals : Path) (w : Downlink) (steps : List DownlinkStep) : Downlink :=
  steps.foldl (apply crc finals) w

/-- A file on the payload has its contents, and noise does not pass for a packet. -/
def Plain (crc : Bytes → UInt32) (files : Text → Option Bytes) : DownlinkStep → Prop
  | .op (.sendNext payload) => ∀ name b, payload.files name = some b → files name = some b
  | .noise datagram         => ∀ pkt, Packet.decode crc (datagram.take MAX_CHUNK_SIZE) ≠ .ok pkt
  | _                       => True

/-- The chunk sizes in force along a run. -/
def sizes (crc : Bytes → UInt32) (finals : Path) : Downlink → List DownlinkStep → List Nat
  | w, []            => [w.rt.currentChunkSize]
  | w, step :: steps => w.rt.currentChunkSize :: sizes crc finals (apply crc finals w step) steps

end DownlinkStep

/-! ## What the sender hands over -/

/-- A packet of the file of one row, cut at one of the sizes. -/
def Ledger.Sends (files : Text → Option Bytes) (sizes : List Nat) (l : Ledger) (pkt : Packet) : Prop :=
  ∃ id r c chunker, l.get id = some r ∧ c ∈ sizes ∧ Chunker.open files r.fileName id c = .ok chunker ∧
    (pkt = chunker.manifestPacket r.fileName ∨ ∃ i, chunker.dataPacket i = .ok pkt ∨ chunker.retransmitPacket i = .ok pkt)

theorem Ledger.Sends.mono {files : Text → Option Bytes} {sizes sizes' : List Nat} {l l' : Ledger} {pkt : Packet}
    (h : l.Sends files sizes pkt) (hl : l.Extends l') (hs : ∀ c ∈ sizes, c ∈ sizes') : l'.Sends files sizes' pkt := by
  obtain ⟨id, r, c, chunker, hr, hc, hopen, hp⟩ := h
  obtain ⟨r', hr', hname, -⟩ := hl id r hr
  rw [← hname] at hopen hp
  exact ⟨id, r', c, chunker, hr', hs c hc, hopen, hp⟩

theorem Chunker.open_mono {files files' : Text → Option Bytes} (h : ∀ name b, files name = some b → files' name = some b)
    {name : Text} {id : FileId} {c : Nat} {chunker : Chunker} (ho : Chunker.open files name id c = .ok chunker) :
    Chunker.open files' name id c = .ok chunker := by
  unfold Chunker.open at ho ⊢
  split at ho
  · cases ho
  · rename_i hc
    rw [if_neg hc]
    split at ho
    · cases ho
    · rename_i file hfile
      rw [h _ _ hfile]
      exact ho

namespace SenderRuntime

variable {crc : Bytes → UInt32} {payload : Payload} {files : Text → Option Bytes} {rt : SenderRuntime}

theorem sends_sendRange (hf : ∀ name b, payload.files name = some b → files name = some b)
    {packet : Chunker → UInt32 → Except Error Packet} (mk : RequestedRange → WorkItem)
    (hp : ∀ c i pkt, packet c i = .ok pkt → c.dataPacket i = .ok pkt ∨ c.retransmitPacket i = .ok pkt)
    {id : FileId} {range : RequestedRange} {b : Bytes}
    (h : b ∈ (sendRange crc payload packet mk rt id range).datagram) :
    ∃ pkt, rt.ledger.Sends files [rt.currentChunkSize] pkt ∧ b = pkt.encode crc := by
  unfold sendRange at h
  split at h
  · cases h
  rename_i rec hrec
  split at h
  · cases h
  · cases h
  rename_i chunker hopen
  split at h
  · cases h
  rename_i pkt hpkt
  refine ⟨pkt, ⟨id, rec, _, chunker, hrec, List.mem_singleton_self _, Chunker.open_mono hf hopen, .inr ⟨_, hp _ _ _ hpkt⟩⟩,
    ?_⟩
  dsimp only at h
  split at h
  · exact emit_datagram h
  · split at h
    · exact emit_datagram h
    · exact emit_datagram h

/-- **What `send_next` hands over** is a packet of a row, at the chunk size in force. -/
theorem sends_sendNext (hf : ∀ name b, payload.files name = some b → files name = some b) (hwf : rt.Wf) {b : Bytes}
    (h : b ∈ (rt.sendNext crc payload).datagram) :
    ∃ pkt, rt.ledger.Sends files [rt.currentChunkSize] pkt ∧ b = pkt.encode crc := by
  rcases sendNext_cases crc payload rt with heq | ⟨item, items, -, hq, heq⟩
  · rw [heq] at h
    cases h
  · rw [heq] at h
    obtain ⟨rec, hrec, hname⟩ := hwf.known item (by rw [hq]; exact List.mem_cons_self)
    cases item with
    | manifest id name =>
      obtain rfl := hname id name rfl
      simp only [sendItem, sendManifest] at h
      split at h
      · cases h
      · rename_i chunker hopen
        exact ⟨_, ⟨id, rec, _, chunker, hrec, List.mem_singleton_self _, Chunker.open_mono hf hopen, .inl rfl⟩,
          emit_datagram h⟩
    | data id range => exact @sends_sendRange crc payload files (rt.taking _) hf _ _ (fun _ _ _ => .inl) _ _ _ h
    | retransmit id range => exact @sends_sendRange crc payload files (rt.taking _) hf _ _ (fun _ _ _ => .inr) _ _ _ h

theorem extends_registerAndPush (rt : SenderRuntime) (name : Text) (size : UInt64) (created : DateTime)
    (interrupt : Bool) (utc : DateTime) :
    rt.ledger.Extends (rt.registerAndPush name size created interrupt utc).2.ledger := by
  unfold registerAndPush
  dsimp only
  split
  · exact .refl _
  · rename_i id l hl
    exact (Ledger.upsertFile_ok hl).1.trans (l.extends_markQueued id utc)

/-- **No operation loses a row or renames one.** -/
theorem extends_apply (crc : Bytes → UInt32) (rt : SenderRuntime) (op : SenderOp) :
    rt.ledger.Extends (op.apply crc rt).ledger := by
  cases op with
  | submit metadata cwd path interrupt utc =>
    simp only [SenderOp.apply, submit]
    split
    · exact .refl _
    · exact .refl _
    · split
      · exact .refl _
      · exact rt.extends_registerAndPush _ _ _ _ _
  | enqueue fileId start count interrupt utc =>
    simp only [SenderOp.apply, enqueue]
    split
    · exact .refl _
    · split
      · exact rt.ledger.extends_markQueued _ _
      · split <;> exact .refl _
  | resendName fileId =>
    simp only [SenderOp.apply, resendName]
    split <;> exact .refl _
  | scanForWork view utc =>
    simp only [SenderOp.apply, scanForWork]
    split
    · exact .refl _
    · exact .refl _
    · rename_i c _
      have h := rt.extends_registerAndPush c.path c.size c.createdAt false utc
      split <;> (rename_i heq; rw [heq] at h; exact h)
  | applyOverride o =>
    simp only [SenderOp.apply, applyOverride]
    split
    · exact .refl _
    · split <;> exact .refl _
  | setState new => cases new <;> exact .refl _
  | sendNext payload =>
    obtain ⟨ledger, queue, rateLimiter, heq, hl⟩ := sendNext_leaves crc payload rt
    rw [SenderOp.apply, heq]
    rcases hl with rfl | ⟨name, rfl⟩
    · exact .refl _
    · exact rt.ledger.extends_markGone name
  | flush => exact .refl _
  | reload cfg => exact .refl _
  | stamp lastRecheck lastStatusDump => exact .refl _

end SenderRuntime

/-! ## Every run -/

namespace DownlinkStep

variable {crc : Bytes → UInt32} {finals : Path} {files : Text → Option Bytes}

/-- Everything handed over is a packet of a row. -/
structure Sound (crc : Bytes → UInt32) (files : Text → Option Bytes) (sizes : List Nat) (w : Downlink) : Prop where
  wf   : w.rt.Wf
  sent : ∀ b ∈ w.sent, ∃ pkt, w.rt.ledger.Sends files sizes pkt ∧ b = pkt.encode crc

theorem Sound.step {sizes : List Nat} {w : Downlink} (h : Sound crc files sizes w) (hc : w.rt.currentChunkSize ∈ sizes)
    {step : DownlinkStep} (hp : step.Plain crc files) : Sound crc files sizes (apply crc finals w step) := by
  cases step with
  | op o =>
    have hext := w.rt.extends_apply crc o
    refine ⟨h.wf.step crc o, fun b hb => ?_⟩
    rcases List.mem_append.1 hb with hb | hb
    · obtain ⟨pkt, hs, rfl⟩ := h.sent b hb
      exact ⟨pkt, hs.mono hext (fun _ => id), rfl⟩
    · cases o with
      | sendNext payload =>
        obtain ⟨pkt, hs, rfl⟩ := SenderRuntime.sends_sendNext hp h.wf (Option.mem_toList.1 hb)
        exact ⟨pkt, hs.mono hext (by simpa using hc), rfl⟩
      | _ => cases hb
  | restart cfg now nowSecs => exact ⟨.new cfg _ now nowSecs, h.sent⟩
  | arrive k =>
    unfold apply
    dsimp only
    split
    · exact h
    · exact ⟨h.wf, h.sent⟩
  | noise datagram => exact ⟨h.wf, h.sent⟩

theorem extends_step (w : Downlink) (step : DownlinkStep) : w.rt.ledger.Extends (apply crc finals w step).rt.ledger := by
  cases step with
  | op o => exact w.rt.extends_apply crc o
  | restart cfg now nowSecs => exact .refl _
  | arrive k =>
    unfold apply
    dsimp only
    split <;> exact .refl _
  | noise datagram => exact .refl _

theorem extends_run : ∀ (steps : List DownlinkStep) (w : Downlink), w.rt.ledger.Extends (run crc finals w steps).rt.ledger
  | [], _            => .refl _
  | step :: steps, w => (extends_step w step).trans (extends_run steps _)

theorem wf_step {w : Downlink} (h : w.rt.Wf) (step : DownlinkStep) : (apply crc finals w step).rt.Wf := by
  cases step with
  | op o => exact h.step crc o
  | restart cfg now nowSecs => exact .new cfg _ now nowSecs
  | arrive k =>
    unfold apply
    dsimp only
    split <;> exact h
  | noise datagram => exact h

theorem wf_run : ∀ (steps : List DownlinkStep) {w : Downlink}, w.rt.Wf → (run crc finals w steps).rt.Wf
  | [], _, h            => h
  | step :: steps, _, h => wf_run steps (wf_step h step)

theorem currentChunkSize_run_mem : ∀ (steps : List DownlinkStep) (w : Downlink),
    (run crc finals w steps).rt.currentChunkSize ∈ sizes crc finals w steps
  | [], _         => List.mem_singleton_self _
  | _ :: steps, _ => List.mem_cons_of_mem _ (currentChunkSize_run_mem steps _)

theorem sizes_ok : ∀ (steps : List DownlinkStep) {w : Downlink}, w.rt.Wf → ∀ c ∈ sizes crc finals w steps,
    MIN_CHUNK_SIZE ≤ c ∧ c ≤ MAX_CHUNK_SIZE
  | [], _, h, c, hc            => by
    rw [List.mem_singleton.1 hc]
    exact h.chunkSize_ok
  | step :: steps, _, h, c, hc => by
    rcases List.mem_cons.1 hc with rfl | hc
    · exact h.chunkSize_ok
    · exact sizes_ok steps (wf_step h step) c hc

/-- **The ground over a run** is reached by packets of the files that the last ledger of it sends. -/
theorem reached_run {Ss : List Source} {ss : List Nat} {l : Ledger}
    (hl : ∀ pkt, l.Sends files ss pkt → ∃ S ∈ Ss, S.Sends pkt) : ∀ (steps : List DownlinkStep) {w : Downlink},
      Sound crc files ss w → (∀ step ∈ steps, step.Plain crc files) → (∀ c ∈ sizes crc finals w steps, c ∈ ss) →
      (run crc finals w steps).rt.ledger.Extends l → Reached crc finals Ss w.disk →
      Reached crc finals Ss (run crc finals w steps).disk
  | [], _, _, _, _, _, hd                => hd
  | step :: steps, w, h, hp, hc, hext, hd => by
    have hstep := hp step List.mem_cons_self
    refine @reached_run Ss ss l hl steps (apply crc finals w step) (h.step (hc _ List.mem_cons_self) hstep)
      (fun s hs => hp s (List.mem_cons_of_mem _ hs)) (fun c hm => hc c (List.mem_cons_of_mem _ hm)) hext ?_
    cases step with
    | op o => exact hd
    | restart cfg now nowSecs => exact hd
    | arrive k =>
      unfold apply
      dsimp only
      split
      · exact hd
      · rename_i datagram hk
        obtain ⟨pkt, hsends, rfl⟩ := h.sent datagram (List.mem_of_getElem? hk)
        obtain ⟨S, hS, hpkt⟩ := hl pkt (hsends.mono ((extends_run (.arrive k :: steps) w).trans hext) (fun _ => id))
        exact @Reached.receiveAll _ _ _ _ hd [pkt.encode crc] (by
          simpa [Ground.Honest] using ⟨S, hS, pkt, hpkt, rfl⟩)
    | noise datagram =>
      -- what does not decode is dropped before it reaches the disk
      show Reached crc finals Ss ((receive crc finals datagram).exec w.disk).2
      unfold receive
      cases hdec : Packet.decode crc (datagram.take MAX_CHUNK_SIZE) with
      | ok pkt => exact absurd hdec (hstep pkt)
      | error e => exact hd

end DownlinkStep

/-! ## The files of a ledger -/

/-- Cut into one chunk at both sizes, a file has the same packets at either. -/
theorem Source.sends_single {S T : Source} (hid : S.fileId = T.fileId) (hname : S.name = T.name)
    (hbytes : S.bytes = T.bytes) (hS : S.count = 1) (hT : T.count = 1) {pkt : Packet} (h : S.Sends pkt) : T.Sends pkt := by
  have hnum : S.chunker.numChunks = T.chunker.numChunks := UInt32.toNat_inj.1 (hS.trans hT.symm)
  have hdata : ∀ i, S.chunker.dataPacket i = T.chunker.dataPacket i := by
    intro i
    by_cases hi : i.toNat < 1
    · have hp : ∀ U : Source, U.count = 1 → U.piece i.toNat = U.bytes := by
        intro U hU
        have := U.count_bounds.2
        rw [hU] at this
        rw [Nat.lt_one_iff.1 hi, piece, Nat.zero_mul, List.drop_zero, List.take_of_length_le (by omega)]
      rw [S.dataPacket_eq i (by omega), T.dataPacket_eq i (by omega), hid, hnum, hp S hS, hp T hT, hbytes, hS, hT]
    · rw [Chunker.dataPacket_of_not_lt (fun hlt => hi (by rw [← hS]; exact UInt32.lt_iff_toNat_lt.1 hlt)),
        Chunker.dataPacket_of_not_lt (fun hlt => hi (by rw [← hT]; exact UInt32.lt_iff_toNat_lt.1 hlt)), hnum]
  cases h with
  | manifest =>
    have heq : S.chunker.manifestPacket S.name = T.chunker.manifestPacket T.name := by
      unfold Chunker.manifestPacket
      rw [hnum, hname, show S.chunker.fileId = T.chunker.fileId from hid]
    rw [heq]
    exact .manifest
  | data i _ hp => exact .data i pkt (by rw [← hdata]; exact hp)
  | retransmit i _ hp =>
    refine .retransmit i pkt ?_
    unfold Chunker.retransmitPacket at hp ⊢
    rw [← hdata]
    exact hp

/-- A file at one chunk size, where it can be sent so. -/
def Source.cut? (id : FileId) (name : Text) (bytes : Bytes) (c : Nat) : Option Source :=
  if h : (MIN_CHUNK_SIZE ≤ c ∧ c ≤ MAX_CHUNK_SIZE) ∧ normalComponents name ≠ [] ∧ (Utf8.encode name).length < 2 ^ 32 ∧
      (bytes.length + (c - HEADER_LEN) - 1) / (c - HEADER_LEN) ≤ 2 ^ 32 - 8 then
    some ⟨id, name, bytes, c, h.1, h.2.1, h.2.2.1, h.2.2.2⟩
  else none

theorem Source.cut?_some {id : FileId} {name : Text} {bytes : Bytes} {c : Nat} {S : Source}
    (h : Source.cut? id name bytes c = some S) :
    S.fileId = id ∧ S.name = name ∧ S.bytes = bytes ∧ S.chunkSize = c := by
  unfold Source.cut? at h
  split at h
  · cases h
    exact ⟨rfl, rfl, rfl, rfl⟩
  · cases h

/-- The first of the sizes that cuts a file of the length into as many chunks. -/
def firstCut (sizes : List Nat) (len c : Nat) : Nat :=
  (sizes.find? (fun c' => chunksForSize len (c' - HEADER_LEN) = chunksForSize len (c - HEADER_LEN))).getD c

theorem firstCut_spec {sizes : List Nat} (len : Nat) {c : Nat} (hc : c ∈ sizes) : firstCut sizes len c ∈ sizes ∧
    chunksForSize len (firstCut sizes len c - HEADER_LEN) = chunksForSize len (c - HEADER_LEN) := by
  unfold firstCut
  cases h : sizes.find? (fun c' => chunksForSize len (c' - HEADER_LEN) = chunksForSize len (c - HEADER_LEN)) with
  | none => exact ⟨hc, rfl⟩
  | some c' => exact ⟨List.mem_of_find?_eq_some h, of_decide_eq_true (List.find?_some h :)⟩

theorem firstCut_eq {sizes : List Nat} {len c c' : Nat} (hc : c ∈ sizes)
    (h : chunksForSize len (c - HEADER_LEN) = chunksForSize len (c' - HEADER_LEN)) :
    firstCut sizes len c = firstCut sizes len c' := by
  unfold firstCut
  rw [← h]
  cases hf : sizes.find? (fun x => chunksForSize len (x - HEADER_LEN) = chunksForSize len (c - HEADER_LEN)) with
  | none => exact absurd (decide_eq_true rfl) (List.find?_eq_none.1 hf c hc)
  | some x => rfl

theorem Source.cut?_of {id : FileId} {name : Text} {bytes : Bytes} {c : Nat} (sizeOk : MIN_CHUNK_SIZE ≤ c ∧ c ≤ MAX_CHUNK_SIZE)
    (nameOk : normalComponents name ≠ []) (nameFits : (Utf8.encode name).length < 2 ^ 32)
    (countFits : (bytes.length + (c - HEADER_LEN) - 1) / (c - HEADER_LEN) ≤ 2 ^ 32 - 8) :
    ∃ S, Source.cut? id name bytes c = some S :=
  ⟨_, dif_pos ⟨sizeOk, nameOk, nameFits, countFits⟩⟩

theorem Source.eq_of {S T : Source} (hid : S.fileId = T.fileId) (hname : S.name = T.name) (hbytes : S.bytes = T.bytes)
    (hsize : S.chunkSize = T.chunkSize) : S = T := by
  cases S
  cases T
  cases hid
  cases hname
  cases hbytes
  cases hsize
  rfl

theorem Source.count_cut (S : Source) : S.count = (chunksForSize S.bytes.length (S.chunkSize - HEADER_LEN)).toNat := rfl

namespace Ledger

/-- The files of the rows, at one size for each number of chunks they are cut into. -/
def sources (files : Text → Option Bytes) (sizes : List Nat) (l : Ledger) : List Source :=
  l.rows.flatMap (fun r => (files r.fileName).toList.flatMap (fun b =>
    sizes.filterMap (fun c => Source.cut? r.fileId r.fileName b (firstCut sizes b.length c))))

/-- What keeps the files of a ledger apart on the ground.  The sizes in use cut a file into different numbers of chunks
(or into one), and no two files land at or below one another. -/
structure KeptApart (files : Text → Option Bytes) (finals : Path) (sizes : List Nat) (l : Ledger) : Prop where
  nameOk    : ∀ r ∈ l.rows, (files r.fileName).isSome → normalComponents r.fileName ≠ []
  nameFits  : ∀ r ∈ l.rows, (files r.fileName).isSome → (Utf8.encode r.fileName).length < 2 ^ 32
  countFits : ∀ r ∈ l.rows, ∀ b, files r.fileName = some b → ∀ c ∈ sizes,
    (b.length + (c - HEADER_LEN) - 1) / (c - HEADER_LEN) ≤ 2 ^ 32 - 8
  recut     : ∀ r ∈ l.rows, ∀ b, files r.fileName = some b → ∀ c ∈ sizes, ∀ c' ∈ sizes,
    chunksForSize b.length (c - HEADER_LEN) = chunksForSize b.length (c' - HEADER_LEN) →
      c = c' ∨ chunksForSize b.length (c - HEADER_LEN) = 1
  apart     : ∀ r ∈ l.rows, ∀ s ∈ l.rows, r.fileId ≠ s.fileId → (files r.fileName).isSome → (files s.fileName).isSome →
    ¬ groundPath finals r.fileName <+: groundPath finals s.fileName

variable {files : Text → Option Bytes} {finals : Path} {sizes : List Nat} {l : Ledger}

theorem mem_sources {S : Source} (h : S ∈ l.sources files sizes) : ∃ r ∈ l.rows, ∃ c ∈ sizes,
    files r.fileName = some S.bytes ∧ S.fileId = r.fileId ∧ S.name = r.fileName ∧
      S.chunkSize = firstCut sizes S.bytes.length c := by
  obtain ⟨r, hr, h⟩ := List.mem_flatMap.1 h
  obtain ⟨b, hb, h⟩ := List.mem_flatMap.1 h
  obtain ⟨c, hc, h⟩ := List.mem_filterMap.1 h
  obtain ⟨hid, hname, rfl, hsize⟩ := Source.cut?_some h
  exact ⟨r, hr, c, hc, Option.mem_toList.1 hb, hid, hname, hsize⟩

namespace KeptApart

variable (h : l.KeptApart files finals sizes)

include h

theorem streams : Streams finals (l.sources files sizes) where
  same := by
    intro S hS T hT hid
    obtain ⟨r, hr, c, hc, hb, hSid, hSname, hSsize⟩ := mem_sources hS
    obtain ⟨s, hs, c', hc', hb', hTid, hTname, hTsize⟩ := mem_sources hT
    obtain rfl : r = s := by
      have hget := get_of_mem hr
      rw [← hSid, hid, hTid, get_of_mem hs, Option.some.injEq] at hget
      exact hget.symm
    have hbytes : S.bytes = T.bytes := Option.some.inj (hb.symm.trans hb')
    refine ⟨hSname.trans hTname.symm, hbytes, ?_⟩
    by_cases hcount : S.count = T.count
    · left
      rw [S.count_cut, T.count_cut, UInt32.toNat_inj, hSsize, hTsize, (firstCut_spec _ hc).2, (firstCut_spec _ hc').2,
        ← hbytes] at hcount
      refine Source.eq_of hid (hSname.trans hTname.symm) hbytes ?_
      rw [hSsize, hTsize, ← hbytes]
      exact firstCut_eq hc hcount
    · exact .inr hcount
  apart := by
    intro S hS T hT hid
    obtain ⟨r, hr, -, -, hb, hSid, hSname, -⟩ := mem_sources hS
    obtain ⟨s, hs, -, -, hb', hTid, hTname, -⟩ := mem_sources hT
    rw [Source.ground, Source.ground, hSname, hTname]
    exact h.apart r hr s hs (by rw [← hSid, ← hTid]; exact hid) (by rw [hb]; rfl) (by rw [hb']; rfl)

/-- A row's file, at the size listed for one of the sizes in use. -/
theorem listed (hsizes : ∀ c ∈ sizes, MIN_CHUNK_SIZE ≤ c ∧ c ≤ MAX_CHUNK_SIZE) {r : FileRecord} (hr : r ∈ l.rows)
    {b : Bytes} (hb : files r.fileName = some b) {c : Nat} (hc : c ∈ sizes) : ∃ S ∈ l.sources files sizes,
      S.fileId = r.fileId ∧ S.name = r.fileName ∧ S.bytes = b ∧ S.chunkSize = firstCut sizes b.length c := by
  have hsome : (files r.fileName).isSome := by rw [hb]; rfl
  have hx := (firstCut_spec b.length hc).1
  obtain ⟨S, hS⟩ := @Source.cut?_of r.fileId _ _ _ (hsizes _ hx) (h.nameOk r hr hsome) (h.nameFits r hr hsome)
    (h.countFits r hr b hb _ hx)
  exact ⟨S, List.mem_flatMap.2 ⟨r, hr, List.mem_flatMap.2 ⟨b, Option.mem_toList.2 hb, List.mem_filterMap.2 ⟨c, hc, hS⟩⟩⟩,
    Source.cut?_some hS⟩

/-- **Every packet of the ledger is one of the files listed.** -/
theorem honest (hsizes : ∀ c ∈ sizes, MIN_CHUNK_SIZE ≤ c ∧ c ≤ MAX_CHUNK_SIZE) {pkt : Packet}
    (hp : l.Sends files sizes pkt) : ∃ S ∈ l.sources files sizes, S.Sends pkt := by
  obtain ⟨id, r, c, chunker, hget, hc, hopen, hpkt⟩ := hp
  obtain ⟨hr, rfl⟩ := mem_of_get hget
  obtain ⟨b, hb, rfl⟩ := Chunker.open_ok hopen
  have hsome : (files r.fileName).isSome := by rw [hb]; rfl
  obtain ⟨S, hS⟩ := @Source.cut?_of r.fileId _ _ _ (hsizes c hc) (h.nameOk r hr hsome) (h.nameFits r hr hsome)
    (h.countFits r hr b hb c hc)
  obtain ⟨hSid, hSname, hSbytes, hSsize⟩ := Source.cut?_some hS
  have hsends : S.Sends pkt := by
    have hchunker : S.chunker = ⟨b, r.fileId, c, c - HEADER_LEN, chunksForSize b.length (c - HEADER_LEN)⟩ := by
      rw [← hSid, ← hSbytes, ← hSsize]
      rfl
    rw [← hchunker] at hpkt
    rcases hpkt with rfl | ⟨i, hi | hi⟩
    · rw [← hSname]
      exact .manifest
    · exact .data i pkt hi
    · exact .retransmit i pkt hi
  obtain ⟨T, hT, hTid, hTname, hTbytes, hTsize⟩ := h.listed hsizes hr hb hc
  obtain ⟨hx, hcount⟩ := firstCut_spec b.length hc
  refine ⟨T, hT, ?_⟩
  -- the size listed in place of this one is the same, or both cut the file into one chunk
  rcases h.recut r hr b hb _ hx c hc hcount with heq | hone
  · rwa [Source.eq_of (hTid.trans hSid.symm) (hTname.trans hSname.symm) (hTbytes.trans hSbytes.symm)
      (hTsize.trans (heq.trans hSsize.symm))]
  · refine Source.sends_single (hSid.trans hTid.symm) (hSname.trans hTname.symm) (hSbytes.trans hTbytes.symm) ?_ ?_ hsends
    · rw [S.count_cut, hSbytes, hSsize, ← hcount, hone, UInt32.toNat_one]
    · rw [T.count_cut, hTbytes, hTsize, hone, UInt32.toNat_one]

end KeptApart

end Ledger

/-- A sender started on a ledger, and an empty ground. -/
def Downlink.start (finals : Path) (sameFs : Bool) (cfg : LiveConfig) (ledger : Ledger) (now : Int) (nowSecs : ℚ) :
    Downlink := ⟨.new cfg ledger now nowSecs, [], .fresh finals sameFs⟩

/-- A state that a run reaches, with the chunk sizes that were in force along it. -/
def Downlink.Reachable (crc : Bytes → UInt32) (finals : Path) (files : Text → Option Bytes) (sizes : List Nat)
    (w : Downlink) : Prop :=
  ∃ sameFs cfg ledger now nowSecs steps, (∀ step ∈ steps, DownlinkStep.Plain crc files step) ∧
    sizes = DownlinkStep.sizes crc finals (.start finals sameFs cfg ledger now nowSecs) steps ∧
    w = DownlinkStep.run crc finals (.start finals sameFs cfg ledger now nowSecs) steps

namespace Downlink

variable {crc : Bytes → UInt32} {finals : Path} {files : Text → Option Bytes} {sizes : List Nat} {w : Downlink}

theorem Reachable.wf (h : w.Reachable crc finals files sizes) : w.rt.Wf := by
  obtain ⟨sameFs, cfg, ledger, now, nowSecs, steps, -, -, rfl⟩ := h
  exact DownlinkStep.wf_run steps (.new cfg ledger now nowSecs)

theorem Reachable.sizes_ok (h : w.Reachable crc finals files sizes) :
    w.rt.currentChunkSize ∈ sizes ∧ ∀ c ∈ sizes, MIN_CHUNK_SIZE ≤ c ∧ c ≤ MAX_CHUNK_SIZE := by
  obtain ⟨sameFs, cfg, ledger, now, nowSecs, steps, -, rfl, rfl⟩ := h
  exact ⟨DownlinkStep.currentChunkSize_run_mem steps _, DownlinkStep.sizes_ok steps (.new cfg ledger now nowSecs)⟩

/-- **The ground of a reachable state** is reached by packets of the ledger's files. -/
theorem Reachable.reached (h : w.Reachable crc finals files sizes) (hapart : w.rt.ledger.KeptApart files finals sizes) :
    Reached crc finals (w.rt.ledger.sources files sizes) w.disk := by
  have hok := h.sizes_ok.2
  obtain ⟨sameFs, cfg, ledger, now, nowSecs, steps, hplain, rfl, rfl⟩ := h
  exact DownlinkStep.reached_run (fun pkt => hapart.honest hok) steps
    ⟨.new cfg ledger now nowSecs, fun b hb => by cases hb⟩ hplain (fun _ hc => hc) (.refl _)
    ⟨sameFs, [], (fun _ hb => by cases hb), rfl⟩

end Downlink

/-- **The ground only ever holds files of the ledger, whole and in their places**, whatever requests, scans, overrides,
reloads and restarts the sender meets, and whatever the link does to the datagrams. -/
theorem downlink_safe (crc : Bytes → UInt32) (finals : Path) (files : Text → Option Bytes) (sizes : List Nat)
    (w : Downlink) (h : w.Reachable crc finals files sizes) (hapart : w.rt.ledger.KeptApart files finals sizes) :
    (∀ r ∈ w.rt.ledger.rows, ∀ b, files r.fileName = some b →
      w.disk.node (groundPath finals r.fileName) = none ∨ w.disk.node (groundPath finals r.fileName) = some (.file b)) ∧
    ∀ p b, w.disk.node p = some (.file b) →
      ∃ r ∈ w.rt.ledger.rows, files r.fileName = some b ∧ p = groundPath finals r.fileName := by
  have hg := Ground.of_reached hapart.streams (h.reached hapart)
  refine ⟨fun r hr b hb => ?_, fun p b hp => ?_⟩
  · obtain ⟨S, hS, -, hname, rfl, -⟩ := hapart.listed h.sizes_ok.2 hr hb h.sizes_ok.1
    have hnode := (hg.delivered hapart.streams).1 S hS
    rwa [Source.ground, hname] at hnode
  · obtain ⟨S, hS, rfl, rfl⟩ := hg.files p b hp
    obtain ⟨r, hr, -, -, hb, -, hname, -⟩ := Ledger.mem_sources hS
    exact ⟨r, hr, hb, by rw [Source.ground, hname]⟩

namespace Forty

def resend : SenderOp := .enqueue 1 (-1) 0 true 0

/-- Half of the file is sent, the sender restarts, all of it is sent; chunks arrive twice and before the name. -/
def steps : List DownlinkStep :=
  [.op (setChunkSize 64), .op submit, .op send, .op send, .restart .default 0 0, .op (setChunkSize 64), .op resend, .op send,
    .op send, .op send, .arrive 1, .arrive 3, .noise [1, 2], .arrive 4, .arrive 0]

theorem plain {step : DownlinkStep} (h : step ∈ steps) : step.Plain crc32 files := by
  simp only [steps, List.mem_cons, List.not_mem_nil, or_false] at h
  rcases h with rfl | rfl | rfl | rfl | rfl | rfl | rfl | rfl | rfl | rfl | rfl | rfl | rfl | rfl | rfl
  case inr.inr.inr.inr.inr.inr.inr.inr.inr.inr.inr.inr.inl =>
    intro pkt hp
    cases hp
  all_goals first | exact trivial | exact fun _ _ h => h

theorem reachable : (DownlinkStep.run crc32 [] (.start [] false .default .empty 0 0) steps).Reachable crc32 [] files
    (DownlinkStep.sizes crc32 [] (.start [] false .default .empty 0 0) steps) :=
  ⟨false, .default, .empty, 0, 0, steps, (fun _ => plain), rfl, rfl⟩

/-- Sizes of which at most one cuts the file in two keep a ledger of this one file apart. -/
theorem keptApart {l : Ledger} {sizes : List Nat} (hname : ∀ r ∈ l.rows, r.fileName = "/a".toList)
    (hid : ∀ r ∈ l.rows, r.fileId = 1) (hsizes : ∀ c ∈ sizes, c = 16192 ∨ c = 64) : l.KeptApart files [] sizes := by
  have hfile : ∀ r ∈ l.rows, ∀ b, files r.fileName = some b → b = List.replicate 40 0 := by
    intro r hr b hb
    rw [hname r hr] at hb
    exact (Option.some.inj hb).symm
  exact
    { nameOk := fun r hr _ => by rw [hname r hr]; exact nameOk
      nameFits := fun r hr _ => by rw [hname r hr]; exact nameFits
      countFits := fun r hr b hb c hc => by
        rw [hfile r hr b hb]
        rcases hsizes c hc with rfl | rfl <;> decide
      recut := fun r hr b hb c hc c' hc' => by
        rw [hfile r hr b hb]
        rcases hsizes c hc with rfl | rfl <;> rcases hsizes c' hc' with rfl | rfl <;> decide
      apart := fun r hr s hs hne => absurd ((hid r hr).trans (hid s hs).symm) hne }

end Forty

/-- The file is there although half of what was sent is lost. -/
theorem downlink_safe_restarted :
    let w := DownlinkStep.run crc32 [] (.start [] false .default .empty 0 0) Forty.steps
    w.disk.node (groundPath [] "/a".toList) ≠ none ∧
      w.disk.node (groundPath [] "/a".toList) = some (.file (List.replicate 40 0)) := by
  intro w
  have hname : ∀ r ∈ w.rt.ledger.rows, r.fileName = "/a".toList := by decide +kernel
  have hsafe := downlink_safe crc32 [] Forty.files _ w Forty.reachable
    (Forty.keptApart hname (by decide +kernel) (by decide +kernel))
  have hn : w.disk.node (groundPath [] "/a".toList) ≠ none := by decide +kernel
  have hrow : ∃ r ∈ w.rt.ledger.rows, r.fileName = "/a".toList := by decide +kernel
  obtain ⟨r, hr, hr'⟩ := hrow
  have hnode := hsafe.1 r hr (List.replicate 40 0) (by rw [hr']; rfl)
  rw [hr'] at hnode
  exact ⟨hn, hnode.resolve_left hn⟩

end Parachuter
