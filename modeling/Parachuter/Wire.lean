import Parachuter.Sidecars
/-!
# Wire — the receive loop on datagrams from anyone

Nothing is assumed of the datagrams here but that they reach the socket.  `bitmap_len` adds 7 to the chunk count in
`u32`: for the seven largest counts the sum wraps, the sidecar gets no bitmap, and `is_complete` slices past its end.
`Packet.Overflows` says when a packet starts such a sidecar.  Where no turn of the loop meets one, no turn panics, and
every sidecar has its `⌈n / 8⌉` bytes of bitmap, whatever calls of the loop fail or are cut short.
-/
namespace Parachuter

open Blob (Bytes)
open Calls (Any Res Strike)

/-! ## Finalising, struck anywhere -/

namespace Reassembler

variable {crc : Bytes → UInt32} {Q : Manifest → Prop} {panics : Prop}

theorem always_drops {c : FsCall} (hc : ∀ d id b, (FsCall.sem c d).2.get (.manifest id) = some b → d.get (.manifest id) = some b)
    (ht : ∀ n d id b, (FsCall.torn c n d).get (.manifest id) = some b → d.get (.manifest id) = some b) :
    (io c).Always anyStrike panics (Disk.Sidecars crc Q) Any :=
  always_io (fun d hd => hd.of_sub (hc d)) (fun n d hd => hd.of_sub (ht n d))

theorem get_of_get_del {d : Disk} {f g : HoldingFile} {b : Bytes} (h : (d.del f).get g = some b) : d.get g = some b := by
  by_cases hg : g = f
  · rw [hg, Disk.get_del_self] at h
    cases h
  · rwa [Disk.get_del_ne _ hg] at h

theorem always_createDirAll (p : Path) : (io (.createDirAll p)).Always anyStrike panics (Disk.Sidecars crc Q) Any := by
  refine always_drops (fun d id b h => ?_) (fun n d id b h => ?_)
  · simp only [FsCall.sem] at h
    split at h <;> exact h
  · simp only [FsCall.torn] at h
    split at h <;> exact h

theorem always_rename (f : HoldingFile) (p : Path) :
    (io (.rename f p)).Always anyStrike panics (Disk.Sidecars crc Q) Any := by
  refine always_drops (fun d id b h => ?_) (fun _ _ _ _ h => h)
  simp only [FsCall.sem] at h
  split at h
  · exact h
  · split at h
    · exact get_of_get_del h
    · exact h

theorem always_copy (f : HoldingFile) (p : Path) :
    (io (.copy f p)).Always anyStrike panics (Disk.Sidecars crc Q) Any := by
  refine always_drops (fun d id b h => ?_) (fun n d id b h => ?_)
  · simp only [FsCall.sem] at h
    split at h
    · exact h
    · split at h <;> exact h
  · cases n with
    | zero => exact h
    | succ n =>
      simp only [FsCall.torn] at h
      split at h
      · exact h
      · split at h <;> exact h

theorem always_remove (f : HoldingFile) : (io (.remove f)).Always anyStrike panics (Disk.Sidecars crc Q) Any := by
  refine always_drops (fun d id b h => ?_) (fun _ _ _ _ h => h)
  simp only [FsCall.sem] at h
  split at h
  · exact h
  · exact get_of_get_del h

theorem always_publish (id : FileId) (dest : Path) :
    (publish id dest).Always anyStrike panics (Disk.Sidecars crc Q) Any := by
  have hparent : (createParent dest).Always anyStrike panics (Disk.Sidecars crc Q) Any := by
    unfold createParent
    split
    · exact Calls.always_ret trivial
    · exact always_createDirAll _
  have hmove : (moveInto id dest).Always anyStrike panics (Disk.Sidecars crc Q) Any := by
    refine Calls.always_bind (Calls.always_attempt (always_rename _ _)) fun r _ => ?_
    split
    · exact Calls.always_ret trivial
    · exact Calls.always_bind (always_copy _ _) fun _ _ => always_remove _
  refine Calls.always_bind hparent fun _ _ => ?_
  refine Calls.always_bind hmove fun _ _ => ?_
  exact Calls.always_bind (always_remove _) fun _ _ => Calls.always_ret trivial

/-- **Finalising**, struck anywhere. -/
theorem always_finalize (hQ : Manifest.Stable Q) (hc : ∀ m, Q m → m.isComplete = none → panics) (finals : Path) (id : FileId) :
    (finalize crc finals id).Always anyStrike panics (Disk.Sidecars crc Q) Any := by
  have hopen : (Manifest.open crc id).Always anyStrike panics (Disk.Sidecars crc Q) Q := by
    intro d hd
    cases hbuf : d.get (.manifest id) with
    | none => exact Manifest.wp_open_none hbuf (fun _ _ => ⟨hd, trivial⟩) (fun _ _ => ⟨hd, trivial⟩) ⟨hd, trivial⟩
    | some buf =>
      obtain ⟨m, hm, rfl⟩ := hd id buf hbuf
      exact Manifest.wp_open_some hbuf (Manifest.parse_bytes crc m (hQ.wf hm)) (fun _ _ => ⟨hd, trivial⟩)
        (fun _ _ => ⟨hd, trivial⟩) ⟨hd, hm⟩
  refine Calls.always_bind hopen fun m hm => ?_
  split
  · rename_i hnone
    exact Calls.always_panic (hc m hm hnone)
  · exact Calls.always_err _
  · split
    · exact Calls.always_err _
    · exact always_publish _ _

end Reassembler

/-! ## Sidecars whose bitmap has its length -/

/-- The sidecar can be read back, and `num_chunks + 7` does not wrap. -/
structure Manifest.Fits (m : Manifest) : Prop extends m.Wf where
  count : m.numChunks.toNat ≤ 2 ^ 32 - 8

namespace Manifest

theorem stable_fits : Stable Fits where
  wf h := h.toWf
  hint h := ⟨stable_wf.hint h.toWf, h.count⟩
  size h := ⟨stable_wf.size h.toWf, h.count⟩
  mark h := ⟨stable_wf.mark h.toWf, h.count⟩

theorem Fits.isComplete_ne_none {m : Manifest} (h : m.Fits) : m.isComplete ≠ none := by
  rw [isComplete_eq m h.bitmap h.count]
  exact Option.some_ne_none _

theorem Fits.length_bitmap {m : Manifest} (h : m.Fits) : m.bitmap.length = (m.numChunks.toNat + 7) / 8 := by
  rw [h.bitmap, toNat_bitmapLen h.count]

theorem bitmapLen_of_wraps {n : UInt32} (h : 2 ^ 32 - 7 ≤ n.toNat) : bitmapLen n = 0 := by
  have hlt := n.toNat_lt
  have h7 : (7 : UInt32).toNat = 7 := rfl
  have h8 : (8 : UInt32).toNat = 8 := rfl
  rw [bitmapLen, UInt32.toNat_div, UInt32.toNat_add, h7, h8]
  omega

/-- **The slice of `is_complete`** runs past the end of an empty bitmap. -/
theorem isComplete_of_wraps {m : Manifest} (hb : m.bitmap.length = bitmapLen m.numChunks)
    (h : 2 ^ 32 - 7 ≤ m.numChunks.toNat) : m.isComplete = none := by
  have h8 : (m.numChunks / 8).toNat = m.numChunks.toNat / 8 := UInt32.toNat_div ..
  unfold isComplete
  simp only [h8]
  rw [if_pos]
  rw [hb, bitmapLen_of_wraps h]
  omega

end Manifest

/-! ## A packet that starts a sidecar without a bitmap -/

/-- The packet starts a sidecar, and its chunk count is one of the seven largest.  The last of several chunks starts
none. -/
def Packet.Overflows (d : Disk) (pkt : Packet) : Prop :=
  2 ^ 32 - 7 ≤ pkt.numChunks.toNat ∧ d.get (.manifest pkt.fileId) = none ∧
  match pkt.ptype with
  | .data | .retransmit   => pkt.flags.isLast = false
  | .manifest | .nameOnly => True
  | .heartbeat            => False

/-- The datagram holds such a packet. -/
def Overflows (crc : Bytes → UInt32) (d : Disk) (datagram : Bytes) : Prop :=
  ∃ pkt, Packet.decode crc (datagram.take MAX_CHUNK_SIZE) = .ok pkt ∧ pkt.Overflows d

theorem payload_lt_of_decode {crc : Bytes → UInt32} {datagram : Bytes} {pkt : Packet}
    (h : Packet.decode crc (datagram.take MAX_CHUNK_SIZE) = .ok pkt) : pkt.payload.length < 2 ^ 16 := by
  have hlen := congrArg List.length (encode_decode h).1
  rw [length_encode, List.length_take] at hlen
  have hmax : MAX_CHUNK_SIZE = 65000 := rfl
  omega

namespace Reassembler

variable {crc : Bytes → UInt32} {d : Disk}

theorem outcome_of_wraps {m : Manifest} (hb : m.bitmap.length = Manifest.bitmapLen m.numChunks)
    (h : 2 ^ 32 - 7 ≤ m.numChunks.toNat) : (outcome m).exec d = (.panic, d) := by
  unfold outcome
  rw [Manifest.isComplete_of_wraps hb h]
  rfl

/-- A chunk that starts such a sidecar: the create, the write and the save succeed, and the check after them panics. -/
theorem ingestChunk_panics {pkt : Packet} (hn : 2 ^ 32 - 7 ≤ pkt.numChunks.toNat)
    (hnone : d.get (.manifest pkt.fileId) = none) (hlast : pkt.flags.isLast = false) (hlen : pkt.payload.length < 2 ^ 30) :
    ((ingestChunk crc pkt).exec d).1 = .panic := by
  have hf : Found crc d pkt.fileId none := hnone
  have hstored : storedUnder crc d pkt = some
      ⟨UInt32.ofNat pkt.payload.length, pkt.numChunks, 0, [], List.replicate (Manifest.bitmapLen pkt.numChunks) 0⟩ := by
    simp only [storedUnder, hf.sidecar, hlast, Bool.false_and, Bool.false_eq_true, if_false]
  obtain ⟨d₀, hd₀, -⟩ := ingestChunk_stored hf hstored
  have hclear : Manifest.isSet ⟨UInt32.ofNat pkt.payload.length, pkt.numChunks, 0, [],
      List.replicate (Manifest.bitmapLen pkt.numChunks) 0⟩ pkt.chunkId = false := Manifest.has_replicate _ _
  rw [hd₀, exec_storeChunk (offset_le (toNat_ofNat_lt hlen) hlen), hclear, if_neg Bool.false_ne_true, outcome_of_wraps]
  · simp [Manifest.set]
  · simpa [Manifest.set] using hn

theorem ingestManifest_panics {pkt : Packet} (hn : 2 ^ 32 - 7 ≤ pkt.numChunks.toNat)
    (hnone : d.get (.manifest pkt.fileId) = none) : ((ingestManifest crc pkt).exec d).1 = .panic := by
  rw [exec_ingestManifest_none hnone]
  unfold nameInto
  rw [if_neg (not_not.2 rfl)]
  split
  · rw [Calls.exec_bind, Manifest.exec_save, Calls.andThen_ok, outcome_of_wraps (List.length_replicate ..) hn]
  · rw [outcome_of_wraps (List.length_replicate ..) hn]

/-- **A packet that starts a sidecar without a bitmap panics.** -/
theorem ingest_panics {pkt : Packet} (h : pkt.Overflows d) (hlen : pkt.payload.length < 2 ^ 30) :
    ((ingest crc pkt).exec d).1 = .panic := by
  obtain ⟨hn, hnone, htype⟩ := h
  unfold ingest
  cases ht : pkt.ptype with
  | data =>
    rw [ht] at htype
    exact ingestChunk_panics hn hnone htype hlen
  | retransmit =>
    rw [ht] at htype
    exact ingestChunk_panics hn hnone htype hlen
  | manifest => exact ingestManifest_panics hn hnone
  | nameOnly => exact ingestManifest_panics hn hnone
  | heartbeat =>
    rw [ht] at htype
    exact htype.elim

theorem fits_fresh {cps n : UInt32} {name : List Char} (hname : (Utf8.encode name).length < 2 ^ 32)
    (hn : ¬ 2 ^ 32 - 7 ≤ n.toNat) : Manifest.Fits ⟨cps, n, 0, name, List.replicate (Manifest.bitmapLen n) 0⟩ :=
  ⟨wf_fresh hname, by show n.toNat ≤ 2 ^ 32 - 8; omega⟩

/-- **Any other packet is ingested without a panic**, struck anywhere, and every sidecar keeps its bitmap. -/
theorem wp_ingest_fits {pkt : Packet} (hd : d.Sidecars crc Manifest.Fits) (h : ¬ pkt.Overflows d)
    (hlen : pkt.payload.length < 2 ^ 30) :
    (ingest crc pkt).wp anyStrike (fun r d' => d'.Sidecars crc Manifest.Fits ∧ r.Ends False Any) d := by
  have hc : ∀ m : Manifest, m.Fits → m.isComplete = none → False := fun m hm hnone => hm.isComplete_ne_none hnone
  have hname : (Utf8.encode (Utf8.decodeLossy pkt.payload)).length < 2 ^ 32 := by
    have hle := Utf8.length_encode_decodeLossy_le pkt.payload
    omega
  have hchunk : (pkt.ptype = .data ∨ pkt.ptype = .retransmit) →
      (ingestChunk crc pkt).wp anyStrike (fun r d' => d'.Sidecars crc Manifest.Fits ∧ r.Ends False Any) d := by
    intro ht
    refine wp_ingestChunk Manifest.stable_fits hc hd (fun hnone htail => fits_fresh (by decide) (fun hn => ?_))
    refine h ⟨hn, hnone, ?_⟩
    -- a count this large is not the count of a single chunk
    have hone : 1 < pkt.numChunks := by
      rw [UInt32.lt_iff_toNat_lt]
      show 1 < pkt.numChunks.toNat
      omega
    have hlast : pkt.flags.isLast = false := by simpa [hone] using htail
    rcases ht with ht | ht
    · rw [ht]
      exact hlast
    · rw [ht]
      exact hlast
  have hmanifest : (pkt.ptype = .manifest ∨ pkt.ptype = .nameOnly) →
      (ingestManifest crc pkt).wp anyStrike (fun r d' => d'.Sidecars crc Manifest.Fits ∧ r.Ends False Any) d := by
    intro ht
    refine wp_ingestManifest Manifest.stable_fits hc hd (fun m hm => ⟨⟨hm.bitmap, hname⟩, hm.count⟩)
      (fun hnone => fits_fresh hname (fun hn => h ⟨hn, hnone, ?_⟩))
    rcases ht with ht | ht
    · rw [ht]
      trivial
    · rw [ht]
      trivial
  unfold ingest
  cases ht : pkt.ptype with
  | data => exact hchunk (.inl ht)
  | retransmit => exact hchunk (.inr ht)
  | manifest => exact hmanifest (.inl ht)
  | nameOnly => exact hmanifest (.inr ht)
  | heartbeat => exact ⟨hd, trivial⟩

end Reassembler

/-! ## One datagram -/

section

variable {crc : Bytes → UInt32} {finals : Path} {d : Disk} {datagram : Bytes}

/-- **One turn of the loop**, struck anywhere. -/
theorem wp_receive (hd : d.Sidecars crc Manifest.Fits) (h : ¬ Overflows crc d datagram) :
    (receive crc finals datagram).wp anyStrike (fun r d' => d'.Sidecars crc Manifest.Fits ∧ r.Ends False Any) d := by
  unfold receive
  split
  · rename_i pkt hpkt
    have hlen : pkt.payload.length < 2 ^ 30 := Nat.lt_trans (payload_lt_of_decode hpkt) (by decide)
    have hfinal : (Reassembler.finalize crc finals pkt.fileId).Always anyStrike False (Disk.Sidecars crc Manifest.Fits) Any :=
      Reassembler.always_finalize Manifest.stable_fits (fun m hm hnone => hm.isComplete_ne_none hnone) _ _
    unfold receivePacket
    rw [Calls.wp_bind, Calls.wp_attempt]
    refine Calls.wp_mono (fun r d' hr => ?_) _ (Reassembler.wp_ingest_fits hd (fun ho => h ⟨pkt, hpkt, ho⟩) hlen)
    cases r with
    | ok o =>
      -- whatever the ingest answers, the rest of the turn is safe
      cases o with
      | complete => exact Calls.always_bind (Calls.always_attempt hfinal) (fun _ _ => Calls.always_ret trivial) d' hr.1
      | accepted => exact ⟨hr.1, trivial⟩
      | duplicate => exact ⟨hr.1, trivial⟩
      | mismatched => exact ⟨hr.1, trivial⟩
      | ignored => exact ⟨hr.1, trivial⟩
    | err e => exact ⟨hr.1, trivial⟩
    | panic => exact hr.2.elim
    | crash => exact ⟨hr.1, trivial⟩
  · exact ⟨hd, trivial⟩

/-- Errors are logged: without faults, a turn that does not panic goes on. -/
theorem receive_returns (h : ((receive crc finals datagram).exec d).1 ≠ .panic) :
    ((receive crc finals datagram).exec d).1 = .ok () := by
  have hcrash := Calls.exec_ne_crash (receive crc finals datagram) d
  have herr : ∀ e, ((receive crc finals datagram).exec d).1 ≠ .err e := by
    intro e
    unfold receive
    split
    · rename_i pkt _
      unfold receivePacket
      rw [Calls.exec_bind, Calls.exec_attempt]
      cases (Reassembler.ingest crc pkt).exec d with
      | mk r d' =>
        cases r with
        | ok o =>
          cases o with
          | complete =>
            simp only [Calls.reify_ok, Calls.andThen_ok, Calls.exec_bind, Calls.exec_attempt]
            cases (Reassembler.finalize crc finals pkt.fileId).exec d' with
            | mk r d'' => cases r <;> simp [Calls.Res.reify, Calls.Res.andThen]
          | _ => simp [Calls.Res.reify]
        | _ => simp [Calls.Res.reify, Calls.Res.andThen]
    · simp
  cases hr : ((receive crc finals datagram).exec d).1 with
  | ok u => rfl
  | err e => exact absurd hr (herr e)
  | panic => exact absurd hr h
  | crash => exact absurd hr hcrash

theorem receive_panics (h : Overflows crc d datagram) : ((receive crc finals datagram).exec d).1 = .panic := by
  obtain ⟨pkt, hpkt, ho⟩ := h
  have hlen : pkt.payload.length < 2 ^ 30 := Nat.lt_trans (payload_lt_of_decode hpkt) (by decide)
  have hpanic := @Reassembler.ingest_panics crc d pkt ho hlen
  unfold receive
  simp only [hpkt]
  unfold receivePacket
  rw [Calls.exec_bind, Calls.exec_attempt, hpanic]
  rfl

end

/-! ## Runs of the receive loop -/

/-- A turn of the receive loop: the datagram, and what strikes the calls it leads to.  After a crash the process starts
again on the disk as it is. -/
structure Turn where
  datagram : Bytes
  strikes  : List (Option Strike)

namespace Turn

def step (crc : Bytes → UInt32) (finals : Path) (d : Disk) (t : Turn) : Disk :=
  ((receive crc finals t.datagram).run t.strikes d).2

def run (crc : Bytes → UInt32) (finals : Path) (d : Disk) (ts : List Turn) : Disk := ts.foldl (step crc finals) d

end Turn

/-- A datagram does the receiver no harm: the turn ends without a panic, with every call made and with any of them failed
or cut; `num_chunks + 7` fits a `u32` in every sidecar it may leave, and the bitmap has its length; and the end of its
chunk is a `u64` whatever the chunk size. -/
structure Harmless (crc : Bytes → UInt32) (finals : Path) (d : Disk) (datagram : Bytes) : Prop where
  returns  : ((receive crc finals datagram).exec d).1 = .ok ()
  struck   : ∀ strikes, ((receive crc finals datagram).run strikes d).1 ≠ .panic
  sidecars : ∀ strikes id buf, ((receive crc finals datagram).run strikes d).2.get (.manifest id) = some buf →
    ∃ m : Manifest, buf = m.bytes crc ∧ m.numChunks.toNat + 7 < 2 ^ 32 ∧ m.bitmap.length = (m.numChunks.toNat + 7) / 8
  offsets  : ∀ pkt, Packet.decode crc (datagram.take MAX_CHUNK_SIZE) = .ok pkt →
    ∀ size : UInt32, pkt.chunkId.toNat * size.toNat + pkt.payload.length < 2 ^ 64

section

variable {crc : Bytes → UInt32} {finals : Path} {d : Disk}

/-- What a turn that starts no bad sidecar leaves, struck as it may be. -/
theorem receive_run {datagram : Bytes} (hd : d.Sidecars crc Manifest.Fits) (h : ¬ Overflows crc d datagram)
    (strikes : List (Option Strike)) :
    ((receive crc finals datagram).run strikes d).2.Sidecars crc Manifest.Fits ∧
      ((receive crc finals datagram).run strikes d).1.Ends False Any :=
  Calls.wp_sound _ (wp_receive hd h) strikes (Calls.meets_of_all (fun _ _ _ => trivial) _ _ _)

theorem harmless_of_fits {datagram : Bytes} (hd : d.Sidecars crc Manifest.Fits) (h : ¬ Overflows crc d datagram) :
    Harmless crc finals d datagram := by
  have hstruck : ∀ strikes, ((receive crc finals datagram).run strikes d).1 ≠ .panic := by
    intro strikes hp
    have hend := (@receive_run crc finals d datagram hd h strikes).2
    rw [hp] at hend
    exact hend
  refine ⟨receive_returns ?_, hstruck, fun strikes id buf hbuf => ?_, fun pkt hpkt size => ?_⟩
  · rw [← Calls.run_nil]
    exact hstruck []
  · obtain ⟨m, hm, rfl⟩ := (receive_run hd h strikes).1 id buf hbuf
    have hcount := hm.count
    exact ⟨m, rfl, by omega, hm.length_bitmap⟩
  · have hlen := payload_lt_of_decode hpkt
    have hle := Nat.mul_le_mul (Nat.le_pred_of_lt pkt.chunkId.toNat_lt) (Nat.le_pred_of_lt size.toNat_lt)
    have hmax : (2 ^ 32 - 1) * (2 ^ 32 - 1) + 2 ^ 16 < 2 ^ 64 := by decide
    exact Nat.lt_of_le_of_lt (Nat.add_le_add hle (Nat.le_of_lt hlen)) hmax

/-- **Where no turn starts a bad sidecar, there is none.** -/
theorem fits_run (sameFs : Bool) (ts : List Turn)
    (h : ∀ pre t post, ts = pre ++ t :: post →
      ¬ Overflows crc (Turn.run crc finals (Disk.fresh finals sameFs) pre) t.datagram) :
    (Turn.run crc finals (Disk.fresh finals sameFs) ts).Sidecars crc Manifest.Fits := by
  induction ts using List.reverseRecOn with
  | nil =>
    intro id buf hbuf
    cases hbuf
  | append_singleton ts t ih =>
    have hbefore := ih (fun pre t' post hs => h pre t' (post ++ [t]) (by rw [hs, List.append_assoc]; rfl))
    unfold Turn.run
    rw [List.foldl_append]
    exact (receive_run hbefore (h ts t [] rfl) t.strikes).1

end

/-- **A run of the receive loop is harmless exactly when no turn of it starts a sidecar with one of the seven largest
chunk counts.**  The datagrams are any bytes, and any calls may have failed or been cut short before. -/
theorem receive_loop_harmless_iff (crc : Bytes → UInt32) (finals : Path) (sameFs : Bool) (ts : List Turn) :
    (∀ pre t post, ts = pre ++ t :: post →
      Harmless crc finals (Turn.run crc finals (Disk.fresh finals sameFs) pre) t.datagram) ↔
    ∀ pre t post, ts = pre ++ t :: post →
      ¬ Overflows crc (Turn.run crc finals (Disk.fresh finals sameFs) pre) t.datagram := by
  constructor
  · intro h pre t post hs ho
    have hreturns := (h pre t post hs).returns
    rw [receive_panics ho] at hreturns
    cases hreturns
  · intro h pre t post hs
    refine harmless_of_fits (fits_run sameFs pre ?_) (h pre t post hs)
    intro pre' t' post' hs'
    exact h pre' t' (post' ++ t :: post) (by rw [hs, hs', List.append_assoc]; rfl)

/-- One chunk of a file announced with `u32::MAX` chunks ends the receiver. -/
theorem datagram_ends_receiver :
    let p : Packet := ⟨.data, .empty, 1, 0, 0xFFFFFFFF, [7]⟩
    Packet.decode crc32 (p.encode crc32) = .ok p ∧
    ((receive crc32 [] (p.encode crc32)).exec (Disk.fresh [] true)).1 = .panic ∧
    ¬ ∀ pre t post, [⟨p.encode crc32, []⟩] = pre ++ t :: post →
      Harmless crc32 [] (Turn.run crc32 [] (Disk.fresh [] true) pre) t.datagram := by
  intro p
  have hpanic : ((receive crc32 [] (p.encode crc32)).exec (Disk.fresh [] true)).1 = .panic := by decide +kernel
  refine ⟨decode_encode crc32 p (by decide), hpanic, fun h => ?_⟩
  have hreturns : ((receive crc32 [] (p.encode crc32)).exec (Disk.fresh [] true)).1 = .ok () :=
    (h [] ⟨p.encode crc32, []⟩ [] rfl).returns
  rw [hpanic] at hreturns
  cases hreturns

end Parachuter
