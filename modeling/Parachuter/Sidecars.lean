import Parachuter.Arrivals
import Parachuter.Torn
/-!
# Sidecars — what an ingest keeps true of the sidecars, whatever packet it is given

An ingest touches a sidecar only by saving one over it, so a property of the sidecars alone is kept as soon as every save
keeps it.  `Saves` collects what has to be shown, `Saves.ingest` is the rule.  `Readable` is such a property: every
sidecar on disk was written whole, so every open of it succeeds.
-/
namespace Parachuter

open Blob (Bytes)
open Calls (Any Res)

theorem Manifest.sidecar_saved (crc : Bytes → UInt32) (id id' : FileId) (m : Manifest) (d : Disk) :
    (m.saved crc id d).get (.manifest id') = if id' = id then some (m.bytes crc) else d.get (.manifest id') := by
  unfold saved
  split
  · rename_i h
    rw [h, Disk.get_put_self]
  · rename_i h
    rw [Disk.get_put_ne _ _ (by simpa using h), Disk.get_del_ne _ (by simp)]

namespace Reassembler

/-- `P` speaks of the sidecars alone, and saving a sidecar with `Q` keeps it; `Q` survives what an ingest does to one. -/
structure Saves (crc : Bytes → UInt32) (P : Disk → Prop) (Q : Manifest → Prop) : Prop where
  frame : ∀ d d', (∀ id, d'.get (.manifest id) = d.get (.manifest id)) → P d → P d'
  saved : ∀ id m d, Q m → P d → P (m.saved crc id d)
  hint  : ∀ {m n}, Q m → Q { m with fileSizeHint := n }
  size  : ∀ {m n}, Q m → Q { m with chunkPayloadSize := n }
  mark  : ∀ {m i}, Q m → Q (m.set i)

namespace Saves

variable {crc : Bytes → UInt32} {P : Disk → Prop} {Q : Manifest → Prop} {panics : Prop}

/-- A call on a data file, struck or not. -/
theorem io (h : Saves crc P Q) {c : FsCall} (hc : ∀ d id, (FsCall.sem c d).2.get (.manifest id) = d.get (.manifest id))
    (ht : ∀ n d id, (FsCall.torn c n d).get (.manifest id) = d.get (.manifest id)) :
    (io c).Always anyStrike panics P Any :=
  always_io (fun d hd => h.frame d _ (hc d) hd) (fun n d hd => h.frame d _ (ht n d) hd)

theorem save (h : Saves crc P Q) (id : FileId) {m : Manifest} (hm : Q m) :
    (m.save crc id).Always anyStrike panics P Any := by
  intro d hd
  refine Manifest.wp_saved (fun d' hf => ?_) ⟨h.saved id m d hm hd, trivial⟩
  have hd' := h.frame d d' (fun id' => hf _ (by simp)) hd
  exact ⟨⟨hd', trivial⟩, ⟨hd', trivial⟩⟩

theorem openData (h : Saves crc P Q) (id : FileId) :
    (Parachuter.io (.openData (.incoming id))).Always anyStrike panics P Any := by
  refine h.io (fun d id' => ?_) (fun _ _ _ => rfl)
  simp only [FsCall.sem]
  split
  · exact Disk.get_put_ne _ _ (by simp)
  · rfl

theorem length (h : Saves crc P Q) (id : FileId) :
    (Parachuter.io (.length (.incoming id))).Always anyStrike panics P Any := by
  refine h.io (fun d id' => ?_) (fun _ _ _ => rfl)
  simp only [FsCall.sem]
  split <;> rfl

theorem setLen (h : Saves crc P Q) (id : FileId) (n : Nat) :
    (Parachuter.io (.setLen (.incoming id) n)).Always anyStrike panics P Any := by
  refine h.io (fun d id' => ?_) (fun _ _ _ => rfl)
  simp only [FsCall.sem]
  split
  · rfl
  · split
    · rfl
    · exact Disk.get_put_ne _ _ (by simp)

theorem writeAt (h : Saves crc P Q) (id : FileId) (off : Nat) (w : Bytes) :
    (Parachuter.io (.writeAt (.incoming id) off w)).Always anyStrike panics P Any := by
  refine h.io (fun d id' => ?_) (fun n d id' => ?_)
  · simp only [FsCall.sem]
    split
    · rfl
    · split
      · rfl
      · exact Disk.get_put_ne _ _ (by simp)
  · simp only [FsCall.torn]
    split
    · rfl
    · split
      · rfl
      · exact Disk.get_put_ne _ _ (by simp)

theorem sync (h : Saves crc P Q) (f : HoldingFile) : (Parachuter.io (.sync f)).Always anyStrike panics P Any :=
  h.io (fun _ _ => rfl) (fun _ _ _ => rfl)

theorem growTo (h : Saves crc P Q) (id : FileId) (n : Nat) : (growTo (.incoming id) n).Always anyStrike panics P Any := by
  refine Calls.always_bind (h.length id) fun len _ => ?_
  split
  · exact h.setLen id n
  · exact Calls.always_ret trivial

theorem lockSize (h : Saves crc P Q) (pkt : Packet) (n : Nat) {m : Manifest} (hm : Q m) :
    (lockSize pkt n m).Always anyStrike panics P Q := by
  unfold Reassembler.lockSize
  split
  · refine Calls.always_bind (h.setLen _ n) fun _ _ => ?_
    refine Calls.always_bind (h.sync _) fun _ _ => ?_
    exact Calls.always_ret (h.hint hm)
  · exact Calls.always_ret hm

theorem writeData (h : Saves crc P Q) (pkt : Packet) {m : Manifest} (hm : Q m) :
    (writeData pkt m).Always anyStrike panics P Q := by
  refine Calls.always_bind (h.openData _) fun _ _ => ?_
  refine Calls.always_bind (h.growTo _ _) fun _ _ => ?_
  refine Calls.always_bind (h.writeAt _ _ _) fun _ _ => ?_
  refine Calls.always_bind (h.sync _) fun _ _ => ?_
  exact h.lockSize pkt _ hm

theorem outcome {m : Manifest} (hc : m.isComplete = none → panics) : (outcome m).Always anyStrike panics P Any := by
  unfold Reassembler.outcome
  split
  · rename_i hnone
    exact Calls.always_panic (hc hnone)
  · exact Calls.always_ret trivial

theorem storeChunk (h : Saves crc P Q) (hc : ∀ m, Q m → m.isComplete = none → panics) (pkt : Packet) {m : Manifest}
    (hm : Q m) : (storeChunk crc pkt m).Always anyStrike panics P Any := by
  refine Calls.always_bind (h.writeData pkt hm) fun m' hm' => ?_
  unfold markChunk
  split
  · exact Calls.always_ret trivial
  · exact Calls.always_bind (h.save _ (h.mark hm')) fun _ _ => outcome (hc _ (h.mark hm'))

theorem ingestInto (h : Saves crc P Q) (hc : ∀ m, Q m → m.isComplete = none → panics) (pkt : Packet) {m : Manifest}
    (hm : Q m) : (ingestInto crc pkt m).Always anyStrike panics P Any := by
  unfold Reassembler.ingestInto
  split
  · exact Calls.always_ret trivial
  split
  · split
    · exact Calls.always_ret trivial
    · exact Calls.always_bind (h.save _ (h.size hm)) fun _ _ => h.storeChunk hc pkt (h.size hm)
  · exact h.storeChunk hc pkt hm

/-- A save over a name, and a sidecar just created, where the packet's name is one `Q` allows. -/
theorem nameInto (h : Saves crc P Q) (hc : ∀ m, Q m → m.isComplete = none → panics) (pkt : Packet) (pathStr : List Char)
    {m : Manifest} (hm : Q m) (hname : ∀ m, Q m → Q { m with name := pathStr }) :
    (nameInto crc pkt pathStr m).Always anyStrike panics P Any := by
  unfold Reassembler.nameInto
  split
  · exact Calls.always_ret trivial
  split
  · exact Calls.always_bind (h.save _ (hname m hm)) fun _ _ => outcome (hc _ (hname m hm))
  · exact outcome (hc m hm)

theorem create (h : Saves crc P Q) (id : FileId) {cps n : UInt32} {name : List Char}
    (hm : Q ⟨cps, n, 0, name, List.replicate (Manifest.bitmapLen n) 0⟩) :
    (Manifest.create crc id cps n name).Always anyStrike panics P Q :=
  Calls.always_bind (h.save id hm) fun _ _ => Calls.always_ret hm

end Saves

end Reassembler

/-! ## Sidecars that were saved -/

/-- Every sidecar on disk is one with `Q` that was saved. -/
def Disk.Sidecars (crc : Bytes → UInt32) (Q : Manifest → Prop) (d : Disk) : Prop :=
  ∀ id buf, d.get (.manifest id) = some buf → ∃ m : Manifest, Q m ∧ buf = m.bytes crc

theorem Disk.Sidecars.of_sub {crc : Bytes → UInt32} {Q : Manifest → Prop} {d d' : Disk} (h : d.Sidecars crc Q)
    (hsub : ∀ id buf, d'.get (.manifest id) = some buf → d.get (.manifest id) = some buf) : d'.Sidecars crc Q :=
  fun id buf hbuf => h id buf (hsub id buf hbuf)

/-- What a property of sidecars must be for every ingest to keep it: a sidecar with it can be read back, and it survives
what an ingest does to one. -/
structure Manifest.Stable (Q : Manifest → Prop) : Prop where
  wf   : ∀ {m}, Q m → m.Wf
  hint : ∀ {m n}, Q m → Q { m with fileSizeHint := n }
  size : ∀ {m n}, Q m → Q { m with chunkPayloadSize := n }
  mark : ∀ {m i}, Q m → Q (m.set i)

theorem Manifest.stable_wf : Stable Wf where
  wf h := h
  hint h := ⟨h.bitmap, h.name⟩
  size h := ⟨h.bitmap, h.name⟩
  mark h := ⟨(Bitmap.length_setBit _ _).trans h.bitmap, h.name⟩

namespace Reassembler

variable {crc : Bytes → UInt32} {Q : Manifest → Prop} {d : Disk} {panics : Prop}

theorem saves_sidecars (crc : Bytes → UInt32) (hQ : Manifest.Stable Q) : Saves crc (Disk.Sidecars crc Q) Q where
  frame d d' heq hd := hd.of_sub (fun id buf hbuf => by rw [← heq id, hbuf])
  saved id m d hm hd id' buf hbuf := by
    rw [Manifest.sidecar_saved] at hbuf
    split at hbuf
    · cases hbuf
      exact ⟨m, hm, rfl⟩
    · exact hd id' buf hbuf
  hint h := hQ.hint h
  size h := hQ.size h
  mark h := hQ.mark h

/-- The sidecar an ingest opens: none, or one with `Q`. -/
theorem wp_open_attempt (hQ : Manifest.Stable Q) (hd : d.Sidecars crc Q) {id : FileId} {α : Type}
    {f : Except Error Manifest → Fs α} {Post : Res Error α → Disk → Prop} (hcrash : Post .crash d)
    (herr : ∀ e, (∀ p, e ≠ .notFound p) → (f (.error e)).wp anyStrike Post d)
    (hnone : d.get (.manifest id) = none → (f (.error (.notFound (.held (.manifest id))))).wp anyStrike Post d)
    (hsome : ∀ m, Q m → d.get (.manifest id) = some (m.bytes crc) → (f (.ok m)).wp anyStrike Post d) :
    ((Manifest.open crc id).attempt >>= f).wp anyStrike Post d := by
  have hio : (f (.error (.io .other))).wp anyStrike Post d := herr _ (by simp)
  rw [Calls.wp_bind, Calls.wp_attempt]
  cases hbuf : d.get (.manifest id) with
  | none => exact Manifest.wp_open_none hbuf (fun _ _ => hio) (fun _ _ => hcrash) (hnone hbuf)
  | some buf =>
    obtain ⟨m, hm, rfl⟩ := hd id buf hbuf
    have hparse := Manifest.parse_bytes crc m (hQ.wf hm)
    exact Manifest.wp_open_some hbuf hparse (fun _ _ => hio) (fun _ _ => hcrash) (hsome m hm hbuf)

/-- **Ingesting a chunk**, struck anywhere: where a sidecar it starts has `Q`, every sidecar keeps it. -/
theorem wp_ingestChunk (hQ : Manifest.Stable Q) (hc : ∀ m, Q m → m.isComplete = none → panics) {pkt : Packet}
    (hd : d.Sidecars crc Q)
    (hnew : d.get (.manifest pkt.fileId) = none → ¬ (pkt.flags.isLast && decide (1 < pkt.numChunks)) = true →
      Q ⟨UInt32.ofNat pkt.payload.length, pkt.numChunks, 0, [], List.replicate (Manifest.bitmapLen pkt.numChunks) 0⟩) :
    (ingestChunk crc pkt).wp anyStrike (fun r d' => d'.Sidecars crc Q ∧ r.Ends panics Any) d := by
  have hs := saves_sidecars crc hQ
  refine wp_open_attempt hQ hd ⟨hd, trivial⟩ (fun e he => ?_) (fun hnone => ?_) (fun m hm _ => ?_)
  · cases e with
    | notFound p => exact absurd rfl (he p)
    | _ => exact ⟨hd, trivial⟩
  · dsimp only
    split
    · exact ⟨hd, trivial⟩
    · rename_i ht
      exact Calls.always_bind (hs.create _ (hnew hnone ht)) (fun m hm => hs.ingestInto hc pkt hm) d hd
  · exact hs.ingestInto hc pkt hm d hd

/-- **Ingesting a manifest**, struck anywhere. -/
theorem wp_ingestManifest (hQ : Manifest.Stable Q) (hc : ∀ m, Q m → m.isComplete = none → panics) {pkt : Packet}
    (hd : d.Sidecars crc Q) (hname : ∀ m, Q m → Q { m with name := Utf8.decodeLossy pkt.payload })
    (hnew : d.get (.manifest pkt.fileId) = none →
      Q ⟨0, pkt.numChunks, 0, Utf8.decodeLossy pkt.payload, List.replicate (Manifest.bitmapLen pkt.numChunks) 0⟩) :
    (ingestManifest crc pkt).wp anyStrike (fun r d' => d'.Sidecars crc Q ∧ r.Ends panics Any) d := by
  have hs := saves_sidecars crc hQ
  have hinto : ∀ m, Q m → (nameInto crc pkt (Utf8.decodeLossy pkt.payload) m).Always anyStrike panics (Disk.Sidecars crc Q)
      Any := fun m hm => hs.nameInto hc pkt _ hm hname
  refine wp_open_attempt hQ hd ⟨hd, trivial⟩ (fun e he => ?_) (fun hnone => ?_) (fun m hm _ => hinto m hm d hd)
  · cases e with
    | notFound p => exact absurd rfl (he p)
    | _ => exact ⟨hd, trivial⟩
  · exact Calls.always_bind (hs.create _ (hnew hnone)) hinto d hd

end Reassembler

/-! ## Sidecars that can be read -/

/-- Every sidecar on disk is one that was saved. -/
def Disk.Readable (crc : Bytes → UInt32) (d : Disk) : Prop :=
  ∀ id buf, d.get (.manifest id) = some buf → ∃ m : Manifest, m.Wf ∧ buf = m.bytes crc

namespace Disk.Readable

variable {crc : Bytes → UInt32} {d : Disk}

theorem sidecar (h : d.Readable crc) {id : FileId} (hs : d.get (.manifest id) ≠ none) :
    ∃ m, m.Wf ∧ d.sidecar crc id = some m := by
  obtain ⟨buf, hbuf⟩ := Option.ne_none_iff_exists'.1 hs
  obtain ⟨m, hm, rfl⟩ := h id buf hbuf
  exact ⟨m, hm, Disk.sidecar_of hbuf (Manifest.parse_bytes crc m hm)⟩

end Disk.Readable

namespace Reassembler

variable {crc : Bytes → UInt32}

theorem wf_fresh {cps n : UInt32} {name : List Char} (hname : (Utf8.encode name).length < 2 ^ 32) :
    Manifest.Wf ⟨cps, n, 0, name, List.replicate (Manifest.bitmapLen n) 0⟩ := ⟨List.length_replicate .., hname⟩

theorem keeps_ingestChunk (pkt : Packet) : (ingestChunk crc pkt).Keeps (Disk.Readable crc) Any := by
  have h : (ingestChunk crc pkt).Always anyStrike True (Disk.Readable crc) Any := fun _ hd =>
    wp_ingestChunk Manifest.stable_wf (fun _ _ _ => trivial) hd (fun _ _ => wf_fresh (by decide))
  exact h.keeps

theorem keeps_ingestManifest {pkt : Packet} (hname : (Utf8.encode (Utf8.decodeLossy pkt.payload)).length < 2 ^ 32) :
    (ingestManifest crc pkt).Keeps (Disk.Readable crc) Any := by
  have h : (ingestManifest crc pkt).Always anyStrike True (Disk.Readable crc) Any := fun _ hd =>
    wp_ingestManifest Manifest.stable_wf (fun _ _ _ => trivial) hd (fun _ hm => ⟨hm.bitmap, hname⟩) (fun _ => wf_fresh hname)
  exact h.keeps

/-- **Ingesting a packet leaves every sidecar readable**, once its payload read as a name fits one. -/
theorem keeps_ingest {pkt : Packet} (hname : (Utf8.encode (Utf8.decodeLossy pkt.payload)).length < 2 ^ 32) :
    (ingest crc pkt).Keeps (Disk.Readable crc) Any := by
  unfold ingest
  cases pkt.ptype with
  | data       => exact keeps_ingestChunk pkt
  | retransmit => exact keeps_ingestChunk pkt
  | manifest   => exact keeps_ingestManifest hname
  | nameOnly   => exact keeps_ingestManifest hname
  | heartbeat  => exact Calls.keeps_ret trivial

theorem readable_finalize {d : Disk} (h : d.Readable crc) (finals : Path) (id : FileId) :
    (((finalize crc finals id).exec d).2).Readable crc := by
  intro id' buf hbuf
  rcases finalize_holding crc finals id d with hall | ⟨hman, -, hother⟩
  · exact h id' buf (by rw [← hall, hbuf])
  · by_cases hid : id' = id
    · rw [hid, hman] at hbuf
      cases hbuf
    · exact h id' buf (by rw [← hother (.manifest id') hid, hbuf])

end Reassembler

/-! ## Where a chunk is stored -/

/-- Where the payload begins and ends in the data file, under a sidecar. -/
def Packet.offsetUnder (pkt : Packet) (m : Manifest) : Nat := pkt.chunkId.toNat * m.chunkPayloadSize.toNat
def Packet.endUnder (pkt : Packet) (m : Manifest) : Nat := pkt.offsetUnder m + pkt.payload.length

namespace Reassembler

/-- The sidecar a chunk is stored under: the one there, with the payload size patched in, or the one it starts.  `none`
where the chunk is turned away. -/
def storedUnder (crc : Bytes → UInt32) (d : Disk) (pkt : Packet) : Option Manifest :=
  match d.sidecar crc pkt.fileId with
  | none   =>
    if pkt.flags.isLast && 1 < pkt.numChunks then none
    else some ⟨UInt32.ofNat pkt.payload.length, pkt.numChunks, 0, [], List.replicate (Manifest.bitmapLen pkt.numChunks) 0⟩
  | some m =>
    if m.numChunks ≠ pkt.numChunks then none
    else if m.chunkPayloadSize = 0 then
      if pkt.flags.isLast && 1 < pkt.numChunks then none else some { m with chunkPayloadSize := UInt32.ofNat pkt.payload.length }
    else some m

variable {crc : Bytes → UInt32} {d : Disk} {pkt : Packet} {m : Manifest}

/-- What an ingest finds in the place of the sidecar. -/
def Found (crc : Bytes → UInt32) (d : Disk) (id : FileId) : Option Manifest → Prop
  | none   => d.get (.manifest id) = none
  | some m => d.get (.manifest id) = some (m.bytes crc) ∧ m.Wf

theorem Found.sidecar {id : FileId} {o : Option Manifest} (h : Found crc d id o) : d.sidecar crc id = o := by
  cases o with
  | none =>
    have hnone : d.get (.manifest id) = none := h
    rw [Disk.sidecar, hnone, Option.bind_none]
  | some m => exact Disk.sidecar_of h.1 (Manifest.parse_bytes crc m h.2)

/-- **A chunk that is turned away** changes nothing. -/
theorem ingestChunk_turned {o : Option Manifest} (hf : Found crc d pkt.fileId o) (h : storedUnder crc d pkt = none) :
    (ingestChunk crc pkt).exec d = (.ok .mismatched, d) := by
  unfold storedUnder at h
  rw [hf.sidecar] at h
  cases o with
  | none =>
    dsimp only at h
    split at h
    · rename_i ht
      rw [exec_ingestChunk_none hf, if_pos ht]
    · cases h
  | some m =>
    rw [exec_ingestChunk_some hf.1 (Manifest.parse_bytes crc m hf.2)]
    dsimp only at h
    unfold ingestInto
    split at h
    · rename_i hn
      rw [if_pos hn]
      rfl
    rename_i hn
    split at h
    · rename_i hz
      split at h
      · rename_i ht
        rw [if_neg hn, if_pos hz, if_pos ht]
        rfl
      · cases h
    · cases h

/-- `d₀` is `d` with the sidecar `m` on disk: it was there, or it is saved. -/
def Prepared (crc : Bytes → UInt32) (d : Disk) (id : FileId) (m : Manifest) (d₀ : Disk) : Prop :=
  (d₀ = d ∧ d.get (.manifest id) = some (m.bytes crc)) ∨ d₀ = m.saved crc id d

namespace Prepared

variable {id : FileId} {d₀ : Disk}

theorem sidecar (h : Prepared crc d id m d₀) : d₀.get (.manifest id) = some (m.bytes crc) := by
  rcases h with ⟨rfl, hm⟩ | rfl
  · exact hm
  · exact Manifest.get_saved_self _ _ _ _

theorem incoming (h : Prepared crc d id m d₀) (j : FileId) : d₀.get (.incoming j) = d.get (.incoming j) := by
  rcases h with ⟨rfl, -⟩ | rfl
  · rfl
  · exact Manifest.get_saved_incoming _ _ _ _ _

theorem frame (h : Prepared crc d id m d₀) : Frame id d d₀ := by
  rcases h with ⟨rfl, -⟩ | rfl
  · exact .refl
  · exact .saved crc m

end Prepared

/-- **A chunk that is not** is stored under that sidecar, once the sidecar is on disk. -/
theorem ingestChunk_stored {o : Option Manifest} (hf : Found crc d pkt.fileId o) (h : storedUnder crc d pkt = some m) :
    ∃ d₀, (ingestChunk crc pkt).exec d = (storeChunk crc pkt m).exec d₀ ∧ Prepared crc d pkt.fileId m d₀ := by
  unfold storedUnder at h
  rw [hf.sidecar] at h
  cases o with
  | none =>
    dsimp only at h
    split at h
    · cases h
    rename_i ht
    cases h
    rw [exec_ingestChunk_none hf, if_neg ht]
    unfold ingestInto
    rw [if_neg (not_not.2 rfl)]
    split
    · -- an empty first chunk: the size is patched in, and saved again, as it is
      dsimp only
      rw [Calls.exec_bind, Manifest.exec_save, Calls.andThen_ok, Manifest.saved_saved]
      exact ⟨_, rfl, .inr rfl⟩
    · exact ⟨_, rfl, .inr rfl⟩
  | some m₀ =>
    rw [exec_ingestChunk_some hf.1 (Manifest.parse_bytes crc m₀ hf.2)]
    dsimp only at h
    unfold ingestInto
    split at h
    · cases h
    rename_i hn
    split at h
    · rename_i hz
      split at h
      · cases h
      rename_i ht
      cases h
      rw [if_neg hn, if_pos hz, if_neg ht]
      dsimp only
      rw [Calls.exec_bind, Manifest.exec_save, Calls.andThen_ok]
      exact ⟨_, rfl, .inr rfl⟩
    · rename_i hz
      cases h
      rw [if_neg hn, if_neg hz]
      exact ⟨d, rfl, .inl ⟨rfl, hf.1⟩⟩

/-- **A chunk that ends past the largest offset** is refused by the file system, and the data stays as it is. -/
theorem storeChunk_far (hlen : ((d.get (.incoming pkt.fileId)).getD []).length ≤ FsCall.OFFSET_MAX)
    (hfar : FsCall.OFFSET_MAX < pkt.endUnder m) : (storeChunk crc pkt m).exec d =
      (.err (.io .other), d.put (.incoming pkt.fileId) ((d.get (.incoming pkt.fileId)).getD [])) := by
  have hopen : (io (.openData (.incoming pkt.fileId))).exec d =
      (.ok (), d.put (.incoming pkt.fileId) ((d.get (.incoming pkt.fileId)).getD [])) := by
    cases h : d.get (.incoming pkt.fileId) with
    | none => exact exec_openData_none h
    | some b =>
      rw [exec_openData_some h, Option.getD_some, Disk.put_of_get h]
  generalize (d.get (.incoming pkt.fileId)).getD [] = b at hlen hopen ⊢
  have hget : (d.put (.incoming pkt.fileId) b).get (.incoming pkt.fileId) = some b := Disk.get_put_self _ _ _
  have hset : (io (.setLen (.incoming pkt.fileId) (pkt.endUnder m))).exec (d.put (.incoming pkt.fileId) b) =
      (.err (.io .other), d.put (.incoming pkt.fileId) b) :=
    exec_io (c := .setLen (.incoming pkt.fileId) (pkt.endUnder m)) (r := .error .other)
      (by simp only [FsCall.sem, hget, hfar, if_true])
  unfold storeChunk writeData growTo
  rw [Calls.exec_bind, Calls.exec_bind, hopen, Calls.andThen_ok, Calls.exec_bind, Calls.exec_bind, exec_length hget,
    Calls.andThen_ok]
  have hshort : b.length < pkt.chunkId.toNat * m.chunkPayloadSize.toNat + pkt.payload.length := Nat.lt_of_le_of_lt hlen hfar
  rw [if_pos hshort]
  show Calls.Res.andThen _ (Calls.Res.andThen _ ((io (.setLen (.incoming pkt.fileId) (pkt.endUnder m))).exec _)) = _
  rw [hset]
  rfl

theorem outcome_snd (m : Manifest) (d : Disk) : ((outcome m).exec d).2 = d := by
  unfold outcome
  split <;> rfl

/-- **What a chunk can do**: it is turned away with nothing changed, or it is stored under a sidecar that is on disk first.
Then the file system refuses it, or the data is placed and the chunk is a duplicate, or it is marked and saved. -/
theorem ingestChunk_cases {o : Option Manifest} (hf : Found crc d pkt.fileId o)
    (hshort : ((d.get (.incoming pkt.fileId)).getD []).length ≤ FsCall.OFFSET_MAX) :
    (storedUnder crc d pkt = none ∧ (ingestChunk crc pkt).exec d = (.ok .mismatched, d)) ∨
    ∃ m d₀, storedUnder crc d pkt = some m ∧ Prepared crc d pkt.fileId m d₀ ∧
      ((FsCall.OFFSET_MAX < pkt.endUnder m ∧ (ingestChunk crc pkt).exec d =
          (.err (.io .other), d₀.put (.incoming pkt.fileId) ((d.get (.incoming pkt.fileId)).getD []))) ∨
        (pkt.endUnder m ≤ FsCall.OFFSET_MAX ∧ m.isSet pkt.chunkId = true ∧ (ingestChunk crc pkt).exec d =
          (.ok .duplicate, d₀.put (.incoming pkt.fileId) (placed pkt m d))) ∨
        (pkt.endUnder m ≤ FsCall.OFFSET_MAX ∧ m.isSet pkt.chunkId = false ∧ (ingestChunk crc pkt).exec d =
          (outcome ((hinted pkt m).set pkt.chunkId)).exec
            (((hinted pkt m).set pkt.chunkId).saved crc pkt.fileId (d₀.put (.incoming pkt.fileId) (placed pkt m d))))) := by
  cases hs : storedUnder crc d pkt with
  | none => exact .inl ⟨rfl, ingestChunk_turned hf hs⟩
  | some m =>
    obtain ⟨d₀, hd₀, hprep⟩ := ingestChunk_stored hf hs
    have hdata := hprep.incoming pkt.fileId
    have hplaced : placed pkt m d₀ = placed pkt m d := by
      unfold placed
      rw [hdata]
    refine .inr ⟨m, d₀, rfl, hprep, ?_⟩
    rw [hd₀, ← hplaced]
    by_cases hend : pkt.endUnder m ≤ FsCall.OFFSET_MAX
    · have hexec := @exec_storeChunk crc pkt m d₀ hend
      cases hset : m.isSet pkt.chunkId with
      | true =>
        rw [hset, if_pos rfl] at hexec
        exact .inr (.inl ⟨hend, rfl, hexec⟩)
      | false =>
        rw [hset, if_neg Bool.false_ne_true] at hexec
        exact .inr (.inr ⟨hend, rfl, hexec⟩)
    · refine .inl ⟨Nat.lt_of_not_le hend, ?_⟩
      rw [← hdata]
      exact storeChunk_far (by rw [hdata]; exact hshort) (Nat.lt_of_not_le hend)

/-- What the sidecar a chunk is stored under comes from. -/
theorem storedUnder_cases {o : Option Manifest} (hf : Found crc d pkt.fileId o) (h : storedUnder crc d pkt = some m) :
    m.numChunks = pkt.numChunks ∧ (m.chunkPayloadSize = 0 → (pkt.flags.isLast && decide (1 < pkt.numChunks)) = false) ∧
    ((o = none ∧ m = ⟨UInt32.ofNat pkt.payload.length, pkt.numChunks, 0, [],
        List.replicate (Manifest.bitmapLen pkt.numChunks) 0⟩) ∨
      (∃ m₀, o = some m₀ ∧ m₀.chunkPayloadSize = 0 ∧
        m = { m₀ with chunkPayloadSize := UInt32.ofNat pkt.payload.length }) ∨
      o = some m) := by
  unfold storedUnder at h
  rw [hf.sidecar] at h
  cases o with
  | none =>
    dsimp only at h
    split at h
    · cases h
    rename_i ht
    cases h
    exact ⟨rfl, fun _ => Bool.eq_false_iff.2 ht, .inl ⟨rfl, rfl⟩⟩
  | some m₀ =>
    dsimp only at h
    split at h
    · cases h
    rename_i hn
    split at h
    · rename_i hz
      split at h
      · cases h
      rename_i ht
      cases h
      exact ⟨not_not.1 hn, fun _ => Bool.eq_false_iff.2 ht, .inr (.inl ⟨m₀, rfl, hz, rfl⟩)⟩
    · rename_i hz
      cases h
      exact ⟨not_not.1 hn, fun h0 => absurd h0 hz, .inr (.inr rfl)⟩

/-! ## Where a name is kept -/

/-- The sidecar that has the name once a manifest is taken: the one there, or the one it starts.  `none` where the
manifest is turned away. -/
def namedUnder (crc : Bytes → UInt32) (d : Disk) (pkt : Packet) : Option Manifest :=
  match d.sidecar crc pkt.fileId with
  | none   => some ⟨0, pkt.numChunks, 0, Utf8.decodeLossy pkt.payload, List.replicate (Manifest.bitmapLen pkt.numChunks) 0⟩
  | some m =>
    if m.numChunks ≠ pkt.numChunks then none
    else if m.name.isEmpty then some { m with name := Utf8.decodeLossy pkt.payload }
    else some m

/-- **A manifest that is turned away** changes nothing. -/
theorem ingestManifest_turned {o : Option Manifest} (hf : Found crc d pkt.fileId o) (h : namedUnder crc d pkt = none) :
    (ingestManifest crc pkt).exec d = (.ok .mismatched, d) := by
  unfold namedUnder at h
  rw [hf.sidecar] at h
  cases o with
  | none => cases h
  | some m =>
    dsimp only at h
    split at h
    · rename_i hn
      rw [exec_ingestManifest_some hf.1 (Manifest.parse_bytes crc m hf.2)]
      unfold nameInto
      rw [if_pos hn]
      rfl
    · split at h <;> cases h

/-- **A manifest that is not** leaves that sidecar on disk, and the data alone. -/
theorem ingestManifest_named {o : Option Manifest} (hf : Found crc d pkt.fileId o) (h : namedUnder crc d pkt = some m) :
    ∃ d₀, (ingestManifest crc pkt).exec d = (outcome m).exec d₀ ∧ Prepared crc d pkt.fileId m d₀ := by
  unfold namedUnder at h
  rw [hf.sidecar] at h
  cases o with
  | none =>
    cases h
    rw [exec_ingestManifest_none hf]
    unfold nameInto
    rw [if_neg (not_not.2 rfl)]
    split
    · -- the name is empty, and is saved again, as it is
      dsimp only
      rw [Calls.exec_bind, Manifest.exec_save, Calls.andThen_ok, Manifest.saved_saved]
      exact ⟨_, rfl, .inr rfl⟩
    · exact ⟨_, rfl, .inr rfl⟩
  | some m₀ =>
    rw [exec_ingestManifest_some hf.1 (Manifest.parse_bytes crc m₀ hf.2)]
    dsimp only at h
    unfold nameInto
    split at h
    · cases h
    rename_i hn
    rw [if_neg hn]
    split at h
    · rename_i he
      cases h
      rw [if_pos he, Calls.exec_bind, Manifest.exec_save, Calls.andThen_ok]
      exact ⟨_, rfl, .inr rfl⟩
    · rename_i he
      cases h
      rw [if_neg he]
      exact ⟨d, rfl, .inl ⟨rfl, hf.1⟩⟩

theorem namedUnder_cases {o : Option Manifest} (hf : Found crc d pkt.fileId o) (h : namedUnder crc d pkt = some m) :
    (o = none ∧ m = ⟨0, pkt.numChunks, 0, Utf8.decodeLossy pkt.payload,
      List.replicate (Manifest.bitmapLen pkt.numChunks) 0⟩) ∨
    (∃ m₀, o = some m₀ ∧ m₀.name = [] ∧ m = { m₀ with name := Utf8.decodeLossy pkt.payload }) ∨
    o = some m := by
  unfold namedUnder at h
  rw [hf.sidecar] at h
  cases o with
  | none =>
    cases h
    exact .inl ⟨rfl, rfl⟩
  | some m₀ =>
    dsimp only at h
    split at h
    · cases h
    split at h
    · rename_i he
      cases h
      exact .inr (.inl ⟨m₀, rfl, List.isEmpty_iff.1 he, rfl⟩)
    · cases h
      exact .inr (.inr rfl)

end Reassembler

end Parachuter
