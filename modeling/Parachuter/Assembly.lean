import Parachuter.Progress
/-!
# Assembly — the ingest simulates the abstract progress

`Assembly S crc d a` ties the two files of an assembly to the abstract progress `a` of the file `S`: the sidecar is
readable, its bitmap is the set of chunks that are there, its payload size is 0 exactly while there are none, and the
data file holds the bytes of every chunk marked, at the offset the file has them.  `ingest_simulates` carries this
across one packet of `S`; `ingest_other_count` says that a packet of another chunk count is turned away with nothing
written.
-/
namespace Parachuter

open Blob (Bytes Holds)
open Calls (Res)

/-- The assembly a file of the holding directory belongs to. -/
def HoldingFile.id : HoldingFile → FileId
  | .incoming id    => id
  | .manifest id    => id
  | .manifestTmp id => id

/-- Nothing changed but the files of one assembly. -/
structure Frame (id : FileId) (d d' : Disk) : Prop where
  get    : ∀ f : HoldingFile, f.id ≠ id → d'.get f = d.get f
  node   : ∀ p, d'.node p = d.node p
  sameFs : d'.sameFs = d.sameFs

namespace Frame

variable {id : FileId} {d d' d'' : Disk}

theorem refl : Frame id d d := ⟨fun _ _ => rfl, fun _ => rfl, rfl⟩

theorem trans (h : Frame id d d') (h' : Frame id d' d'') : Frame id d d'' :=
  ⟨fun f hf => (h'.get f hf).trans (h.get f hf), fun p => (h'.node p).trans (h.node p), h'.sameFs.trans h.sameFs⟩

theorem put_incoming (b : Bytes) : Frame id d (d.put (.incoming id) b) := by
  refine ⟨fun g hg => Disk.get_put_ne _ _ ?_, fun _ => rfl, rfl⟩
  rintro rfl
  exact hg rfl

theorem saved (crc : Bytes → UInt32) (m : Manifest) : Frame id d (m.saved crc id d) := by
  refine ⟨fun g hg => ?_, fun _ => rfl, rfl⟩
  rw [Manifest.saved, Disk.get_put_ne _ _ (by rintro rfl; exact hg rfl), Disk.get_del_ne _ (by rintro rfl; exact hg rfl)]

end Frame

namespace Source

variable (S : Source)

/-- What the two files of an assembly say of the file `S`, at progress `a`, the payload size apart. -/
structure Core (m : Manifest) (data : Option Bytes) (a : Progress) : Prop where
  numChunks : m.numChunks = S.chunker.numChunks
  bitmap    : m.bitmap.length = Manifest.bitmapLen m.numChunks
  name      : m.name = if a.named then S.name else []
  has       : ∀ i, m.has i = true ↔ i ∈ a.got
  below     : ∀ i ∈ a.got, i < S.count
  present   : a.got ≠ ∅ → data ≠ none
  holds     : ∀ i ∈ a.got, Holds (data.getD []) (i * S.payloadSize) (S.piece i)
  length    : (data.getD []).length ≤ S.bytes.length
  last      : S.count - 1 ∈ a.got → (data.getD []).length = S.bytes.length

/-- The same, with the payload size fixed by the first chunk that is there. -/
structure Sound (m : Manifest) (data : Option Bytes) (a : Progress) : Prop extends Core S m data a where
  size : m.chunkPayloadSize.toNat = if a.got = ∅ then 0 else S.stride

/-- The holding directory at progress `a` of the file `S`. -/
def Assembly (crc : Bytes → UInt32) (d : Disk) : Option Progress → Prop
  | none   => d.get (.manifest S.fileId) = none ∧ d.get (.incoming S.fileId) = none
  | some a => ∃ m : Manifest, d.get (.manifest S.fileId) = some (m.bytes crc) ∧ S.Sound m (d.get (.incoming S.fileId)) a

variable {S}

namespace Core

variable {m : Manifest} {data : Option Bytes} {a : Progress}

theorem count (h : S.Core m data a) : m.numChunks.toNat = S.count := congrArg UInt32.toNat h.numChunks

theorem wf (h : S.Core m data a) : m.Wf := by
  refine ⟨h.bitmap, ?_⟩
  rw [h.name]
  split
  · exact S.nameFits
  · decide

theorem parse (h : S.Core m data a) (crc : Bytes → UInt32) : Manifest.parse crc (m.bytes crc) = .ok m :=
  Manifest.parse_bytes crc m h.wf

theorem name_isEmpty (h : S.Core m data a) : m.name.isEmpty = !a.named := by
  rw [h.name]
  cases a.named with
  | true => simp [S.nameNe]
  | false => rfl

theorem isComplete (h : S.Core m data a) : m.isComplete = some (decide (Finset.range S.count ⊆ a.got)) := by
  rw [Manifest.isComplete_eq m h.bitmap (by rw [h.count]; exact S.count_le), h.count]
  congr 1
  apply decide_eq_decide.2
  constructor
  · exact fun hall i hi => (h.has i).1 (hall i (Finset.mem_range.1 hi))
  · exact fun hsub i hi => (h.has i).2 (hsub (Finset.mem_range.2 hi))

/-- **The answer is the abstract one.** -/
theorem exec_outcome (h : S.Core m data a) (d : Disk) :
    (Reassembler.outcome m).exec d = (.ok (a.answer S.count), d) := by
  rw [Reassembler.exec_outcome d h.isComplete, h.name_isEmpty, Bool.not_not, Bool.and_comm]
  rfl

theorem disjoint {i j : Nat} (hij : j ≠ i) : j * S.payloadSize + (S.piece j).length ≤ i * S.payloadSize ∨
    i * S.payloadSize + (S.piece i).length ≤ j * S.payloadSize := by
  have hlen : ∀ k, (S.piece k).length ≤ S.payloadSize := fun k => by rw [S.length_piece]; exact Nat.min_le_left _ _
  have hmul : ∀ k l, k < l → k * S.payloadSize + S.payloadSize ≤ l * S.payloadSize := fun k l hkl => by
    rw [← Nat.succ_mul]; exact Nat.mul_le_mul_right _ hkl
  rcases Nat.lt_or_gt_of_ne hij with hlt | hlt
  · exact .inl (Nat.le_trans (Nat.add_le_add_left (hlen j) _) (hmul j i hlt))
  · exact .inr (Nat.le_trans (Nat.add_le_add_left (hlen i) _) (hmul i j hlt))

/-- **Placing a chunk keeps what the files say**, with that chunk marked. -/
theorem place (h : S.Core m data a) {i : Nat} (hi : i < S.count) (hint : UInt64) :
    S.Core { m with fileSizeHint := hint, bitmap := Bitmap.setBit m.bitmap i }
      (some (Blob.place (data.getD []) (i * S.payloadSize) (S.piece i) (decide (i = S.count - 1))))
      { a with got := insert i a.got } where
  numChunks := h.numChunks
  bitmap := by
    show (Bitmap.setBit m.bitmap i).length = _
    rw [Bitmap.length_setBit]; exact h.bitmap
  name := h.name
  has := by
    intro j
    have hb : i / 8 < m.bitmap.length := by
      have := h.count
      rw [h.bitmap, Manifest.toNat_bitmapLen (by rw [this]; exact S.count_le), this]
      omega
    show Bitmap.getBit (Bitmap.setBit m.bitmap i) j = true ↔ _
    rw [Bitmap.getBit_setBit hb, Bool.or_eq_true, decide_eq_true_iff, Finset.mem_insert]
    exact or_congr_right (h.has j)
  below := by
    intro j hj
    rcases Finset.mem_insert.1 hj with rfl | hj
    · exact hi
    · exact h.below j hj
  present := fun _ => by simp
  holds := by
    intro j hj
    rw [Option.getD_some]
    by_cases hji : j = i
    · subst hji; exact Blob.holds_place _ _ _ _
    · refine (h.holds j (Finset.mem_of_mem_insert_of_ne hj hji)).place (disjoint hji) (fun hc => ?_)
      -- a cut is at the end of the whole file
      have hlast := of_decide_eq_true hc
      rw [hlast, S.end_of_last]
      exact S.end_le (h.below j (Finset.mem_of_mem_insert_of_ne hj hji))
  length := by
    rw [Option.getD_some, Blob.length_place]
    have := S.end_le hi
    split
    · exact this
    · exact Nat.max_le.2 ⟨h.length, this⟩
  last := by
    intro hj
    rw [Option.getD_some, Blob.length_place]
    by_cases hl : i = S.count - 1
    · rw [if_pos (decide_eq_true hl), hl, S.end_of_last]
    · rw [if_neg (by simpa using hl), h.last (Finset.mem_of_mem_insert_of_ne hj (Ne.symm hl))]
      exact Nat.max_eq_left (S.end_le hi)

/-- **A full assembly holds the file.** -/
theorem data_eq (h : S.Core m data a) (hf : Finset.range S.count ⊆ a.got) : data = some S.bytes := by
  have hpos := S.count_pos
  have h0 : 0 ∈ a.got := hf (Finset.mem_range.2 hpos)
  have hl := h.last (hf (Finset.mem_range.2 (Nat.sub_lt hpos Nat.one_pos)))
  obtain ⟨b, rfl⟩ := Option.ne_none_iff_exists'.1 (h.present (Finset.ne_empty_of_mem h0))
  rw [Option.getD_some] at hl
  have hb : b = S.bytes := by
    refine Blob.eq_of_holds_pieces hl (fun i hi => ?_)
    -- position `i` lies in chunk `i / payloadSize`
    have hp := S.payloadSize_pos
    have hk : i / S.payloadSize < S.count := by
      rw [Nat.div_lt_iff_lt_mul hp]; exact Nat.lt_of_lt_of_le hi S.count_bounds.2
    have hmod := Nat.div_add_mod i S.payloadSize
    have hmodlt := Nat.mod_lt i hp
    have hlen := S.length_piece (i / S.payloadSize)
    have hend := S.end_le hk
    rw [Nat.mul_comm] at hmod
    refine ⟨i / S.payloadSize * S.payloadSize, (S.piece (i / S.payloadSize)).length, by omega, by omega, hend, ?_⟩
    have hpre : S.piece (i / S.payloadSize) = _ := List.prefix_iff_eq_take.1 ( List.take_prefix _ _)
    rw [← hpre]
    exact h.holds _ (hf (Finset.mem_range.2 hk))
  rw [hb]

end Core

/-! ## The chunks of a packet run -/

/-- Offsets within a file of this size stay below what the file system addresses. -/
theorem end_le_offsetMax {i : Nat} (hi : i < S.count) : i * S.payloadSize + (S.piece i).length ≤ FsCall.OFFSET_MAX := by
  have h1 := S.end_le hi
  have h2 := S.count_bounds.2
  have h3 : S.count * S.payloadSize ≤ (2 ^ 32 - 8) * 64968 := Nat.mul_le_mul S.count_le S.payloadSize_le
  unfold FsCall.OFFSET_MAX
  omega

theorem IsChunk.deferral {i : Nat} {pkt : Packet} (hp : S.IsChunk i pkt) :
    (pkt.flags.isLast && decide (1 < pkt.numChunks)) = decide (1 < S.count ∧ i = S.count - 1) := by
  have h1 : (1 < pkt.numChunks) ↔ 1 < S.count := by
    rw [UInt32.lt_iff_toNat_lt, hp.numChunks]; rfl
  rw [hp.isLast, Bool.decide_and, Bool.and_comm]
  congr 1
  exact decide_eq_decide.2 h1

/-- A chunk that is not deferred has the stride for its length. -/
theorem IsChunk.toNat_payload {i : Nat} {pkt : Packet} (hp : S.IsChunk i pkt)
    (h : ¬ (pkt.flags.isLast && decide (1 < pkt.numChunks)) = true) :
    (UInt32.ofNat pkt.payload.length).toNat = S.stride := by
  rw [hp.deferral, decide_eq_true_iff] at h
  have hle := S.stride_le
  have hpos := S.count_pos
  rw [hp.payload, S.length_piece_eq_stride hp.lt (by omega), UInt32.toNat_ofNat', Nat.mod_eq_of_lt (by omega)]

/-- **Storing a chunk** of the file, once the payload size is right. -/
theorem Core.exec_storeChunk {crc : Bytes → UInt32} {d : Disk} {m : Manifest} {a : Progress} {i : Nat} {pkt : Packet}
    (hm : d.get (.manifest S.fileId) = some (m.bytes crc)) (h : S.Core m (d.get (.incoming S.fileId)) a)
    (hs : m.chunkPayloadSize.toNat = S.stride) (hp : S.IsChunk i pkt) :
    ∃ d', (Reassembler.storeChunk crc pkt m).exec d =
        (.ok (if i ∈ a.got then .duplicate else Progress.answer S.count { a with got := insert i a.got }), d') ∧
      S.Assembly crc d' (some { a with got := insert i a.got }) ∧ Frame S.fileId d d' := by
  have hoff : pkt.chunkId.toNat * m.chunkPayloadSize.toNat = i * S.payloadSize := by
    rw [hp.chunkId, hs, S.mul_stride hp.lt]
  have hplaced : Reassembler.placed pkt m d =
      Blob.place ((d.get (.incoming S.fileId)).getD []) (i * S.payloadSize) (S.piece i) (decide (i = S.count - 1)) := by
    rw [Reassembler.placed, hoff, hp.fileId, hp.payload, hp.isLast]
  have hset : m.isSet pkt.chunkId = decide (i ∈ a.got) := by
    rw [Bool.eq_iff_iff, decide_eq_true_iff, ← h.has i, ← hp.chunkId]
    rfl
  obtain ⟨hint, hhint⟩ : ∃ x, Reassembler.hinted pkt m = { m with fileSizeHint := x } := by
    unfold Reassembler.hinted
    split
    · exact ⟨_, rfl⟩
    · exact ⟨_, rfl⟩
  have hcore := h.place hp.lt hint
  have hne : (insert i a.got : Finset Nat) ≠ ∅ := Finset.insert_ne_empty _ _
  rw [Reassembler.storeChunk, Calls.exec_bind, Reassembler.exec_writeData (by
    rw [hoff, hp.payload]; exact end_le_offsetMax hp.lt), Calls.andThen_ok, hhint, hplaced, Reassembler.markChunk]
  have hset' : Manifest.isSet { m with fileSizeHint := hint } pkt.chunkId = m.isSet pkt.chunkId := rfl
  rw [hset', hset, hp.fileId]
  by_cases hi : i ∈ a.got
  · -- a duplicate: the data is written again, the sidecar is not
    rw [if_pos (decide_eq_true hi), if_pos hi]
    refine ⟨_, rfl, ⟨m, ?_, ?_⟩, Frame.put_incoming _⟩
    · rw [Disk.get_put_ne _ _ (by simp)]; exact hm
    · rw [Disk.get_put_self]
      rw [Finset.insert_eq_of_mem hi] at hcore hne ⊢
      exact ⟨⟨h.numChunks, h.bitmap, h.name, h.has, h.below, hcore.present, hcore.holds, hcore.length, hcore.last⟩,
        by rw [hs, if_neg hne]⟩
  · rw [if_neg (by simpa using hi), if_neg hi, Calls.exec_bind, Manifest.exec_save, Calls.andThen_ok]
    have hm' : Manifest.set { m with fileSizeHint := hint } pkt.chunkId =
        { m with fileSizeHint := hint, bitmap := Bitmap.setBit m.bitmap i } := by
      rw [Manifest.set, hp.chunkId]
    rw [hm', hcore.exec_outcome]
    refine ⟨_, rfl, ⟨_, Manifest.get_saved_self .., ?_⟩, (Frame.put_incoming _).trans (Frame.saved crc _)⟩
    rw [Manifest.get_saved_incoming, Disk.get_put_self]
    exact ⟨hcore, by rw [if_neg hne]; exact hs⟩

/-- The sidecar a cold start or a name that came first creates. -/
theorem core_fresh (cps : UInt32) (named : Bool) :
    S.Core ⟨cps, S.chunker.numChunks, 0, if named then S.name else [],
      List.replicate (Manifest.bitmapLen S.chunker.numChunks) 0⟩ none ⟨∅, named⟩ where
  numChunks := rfl
  bitmap := List.length_replicate ..
  name := rfl
  has := fun i => by
    show Bitmap.getBit _ i = true ↔ _
    rw [Manifest.has_replicate]; simp
  below := fun i hi => by simp at hi
  present := fun h => absurd rfl h
  holds := fun i hi => by simp at hi
  length := Nat.zero_le _
  last := fun hi => by simp at hi

/-- **Ingesting a chunk into a sidecar** of the file, unless it is deferred. -/
theorem Core.exec_ingestInto {crc : Bytes → UInt32} {d : Disk} {m : Manifest} {a : Progress} {i : Nat} {pkt : Packet}
    (hm : d.get (.manifest S.fileId) = some (m.bytes crc)) (h : S.Core m (d.get (.incoming S.fileId)) a)
    (hs : m.chunkPayloadSize.toNat = S.stride ∨ m.chunkPayloadSize.toNat = 0) (hp : S.IsChunk i pkt)
    (hl : m.chunkPayloadSize.toNat = 0 → ¬ (1 < S.count ∧ i = S.count - 1)) :
    ∃ d', (Reassembler.ingestInto crc pkt m).exec d =
        (.ok (if i ∈ a.got then .duplicate else Progress.answer S.count { a with got := insert i a.got }), d') ∧
      S.Assembly crc d' (some { a with got := insert i a.got }) ∧ Frame S.fileId d d' := by
  have hnum : m.numChunks = pkt.numChunks := UInt32.toNat_inj.1 (by rw [h.count, hp.numChunks])
  unfold Reassembler.ingestInto
  rw [if_neg (not_not.2 hnum)]
  by_cases hz : m.chunkPayloadSize = 0
  · -- the payload size is patched from this chunk, and is the stride
    have hz' : m.chunkPayloadSize.toNat = 0 := by rw [hz]; rfl
    have hstride : (UInt32.ofNat pkt.payload.length).toNat = S.stride := by
      have hle := S.stride_le
      have hpl := S.length_piece_eq_stride hp.lt (by have := hl hz'; have := S.count_pos; omega)
      rw [hp.payload, hpl, UInt32.toNat_ofNat', Nat.mod_eq_of_lt (by omega)]
    rw [if_pos hz, hp.deferral, if_neg (by simpa using hl hz'), Calls.exec_bind, Manifest.exec_save, Calls.andThen_ok,
      hp.fileId]
    obtain ⟨d', hd', ha', hf'⟩ := Core.exec_storeChunk
      (d := Manifest.saved crc S.fileId { m with chunkPayloadSize := UInt32.ofNat pkt.payload.length } d)
      (m := { m with chunkPayloadSize := UInt32.ofNat pkt.payload.length }) (a := a) (Manifest.get_saved_self ..)
      (by
        rw [Manifest.get_saved_incoming]
        exact ⟨h.numChunks, h.bitmap, h.name, h.has, h.below, h.present, h.holds, h.length, h.last⟩) hstride hp
    exact ⟨d', hd', ha', (Frame.saved crc _).trans hf'⟩
  · have hs' : m.chunkPayloadSize.toNat = S.stride :=
      hs.resolve_right (fun h0 => hz (UInt32.toNat_inj.1 h0))
    rw [if_neg hz]
    exact Core.exec_storeChunk hm h hs' hp

/-- **A chunk of the file** does to its assembly what the abstract model says. -/
theorem ingestChunk_simulates {crc : Bytes → UInt32} {d : Disk} {a : Option Progress} {i : Nat} {pkt : Packet}
    (h : S.Assembly crc d a) (hp : S.IsChunk i pkt) :
    ∃ d', (Reassembler.ingestChunk crc pkt).exec d = (.ok (Progress.step S.count a (.chunk i)).1, d') ∧
      S.Assembly crc d' (Progress.step S.count a (.chunk i)).2 ∧ Frame S.fileId d d' := by
  have hid := hp.fileId
  cases a with
  | none =>
    rw [Reassembler.exec_ingestChunk_none (by rw [hid]; exact h.1), hp.deferral]
    by_cases hd : 1 < S.count ∧ i = S.count - 1
    · -- turned away, nothing written
      rw [if_pos (decide_eq_true hd)]
      have hdef : Progress.deferred S.count i ((none : Option Progress).getD Progress.empty) = true := by
        simp [Progress.deferred, Progress.empty, hd]
      rw [Progress.step_deferred hdef]
      exact ⟨d, rfl, h, Frame.refl⟩
    · rw [if_neg (by simpa using hd), hid]
      have hdef : Progress.deferred S.count i ((none : Option Progress).getD Progress.empty) = false := by
        simpa [Progress.deferred, Progress.empty] using hd
      have hnum : pkt.numChunks = S.chunker.numChunks := UInt32.toNat_inj.1 hp.numChunks
      have hstride : (UInt32.ofNat pkt.payload.length).toNat = S.stride := by
        have hle := S.stride_le
        have hpl := S.length_piece_eq_stride hp.lt (by have := S.count_pos; omega)
        rw [hp.payload, hpl, UInt32.toNat_ofNat', Nat.mod_eq_of_lt (by omega)]
      rw [hnum, Progress.step_chunk hdef]
      have hcore := @core_fresh S (UInt32.ofNat pkt.payload.length) false
      obtain ⟨d', hd', ha', hf'⟩ := Core.exec_ingestInto (Manifest.get_saved_self crc S.fileId _ d)
        (by rw [Manifest.get_saved_incoming, h.2]; exact hcore) (.inl hstride) hp (fun _ => hd)
      exact ⟨d', hd', ha', (Frame.saved crc _).trans hf'⟩
  | some a =>
    obtain ⟨m, hm, hs⟩ := h
    rw [Reassembler.exec_ingestChunk_some (by rw [hid]; exact hm) (hs.parse crc)]
    by_cases hd : (1 < S.count ∧ i = S.count - 1) ∧ a.got = ∅
    · have hz : m.chunkPayloadSize = 0 := UInt32.toNat_inj.1 (by rw [hs.size, if_pos hd.2]; rfl)
      have hnum : m.numChunks = pkt.numChunks := UInt32.toNat_inj.1 (by rw [hs.count, hp.numChunks])
      have hdef : Progress.deferred S.count i ((some a).getD Progress.empty) = true := by
        simp [Progress.deferred, hd]
      unfold Reassembler.ingestInto
      rw [if_neg (not_not.2 hnum), if_pos hz, hp.deferral, if_pos (decide_eq_true hd.1)]
      rw [Progress.step_deferred hdef]
      exact ⟨d, rfl, ⟨m, hm, hs⟩, Frame.refl⟩
    · have hdef : Progress.deferred S.count i ((some a).getD Progress.empty) = false := by
        simpa [Progress.deferred] using hd
      have hsz := hs.size
      obtain ⟨d', hd', ha', hf'⟩ := Core.exec_ingestInto hm hs.toCore
        (by by_cases he : a.got = ∅
            · exact .inr (by rw [hsz, if_pos he])
            · exact .inl (by rw [hsz, if_neg he])) hp
        (fun h0 hl => by
          by_cases he : a.got = ∅
          · exact hd ⟨hl, he⟩
          · rw [hsz, if_neg he] at h0
            exact absurd h0 (Nat.ne_of_gt (S.stride_pos (by omega))))
      rw [Progress.step_chunk hdef]
      exact ⟨d', hd', ha', hf'⟩

/-- **Naming a sidecar** of the file; a name that is there is kept. -/
theorem Core.exec_nameInto {crc : Bytes → UInt32} {d : Disk} {m : Manifest} {a : Progress}
    (hm : d.get (.manifest S.fileId) = some (m.bytes crc)) (h : S.Sound m (d.get (.incoming S.fileId)) a) :
    ∃ d', (Reassembler.nameInto crc (S.chunker.manifestPacket S.name) S.name m).exec d =
        (.ok (Progress.answer S.count { a with named := true }), d') ∧
      S.Assembly crc d' (some { a with named := true }) ∧ Frame S.fileId d d' := by
  have hnum : m.numChunks = (S.chunker.manifestPacket S.name).numChunks := h.numChunks
  unfold Reassembler.nameInto
  rw [if_neg (not_not.2 hnum), h.name_isEmpty]
  cases hn : a.named with
  | true =>
    have ha : ({ a with named := true } : Progress) = a := by rw [← hn]
    rw [ha, if_neg (by simp), h.exec_outcome]
    exact ⟨d, rfl, ⟨m, hm, h⟩, Frame.refl⟩
  | false =>
    have hcore : S.Core { m with name := S.name } (d.get (.incoming S.fileId)) { a with named := true } :=
      ⟨h.numChunks, h.bitmap, rfl, h.has, h.below, h.present, h.holds, h.length, h.last⟩
    rw [if_pos (by simp), Calls.exec_bind, Manifest.exec_save, Calls.andThen_ok, hcore.exec_outcome]
    refine ⟨_, rfl, ⟨_, Manifest.get_saved_self .., ?_⟩, Frame.saved crc _⟩
    rw [show (S.chunker.manifestPacket S.name).fileId = S.fileId from rfl, Manifest.get_saved_incoming]
    exact ⟨hcore, h.size⟩

theorem ingestManifest_simulates {crc : Bytes → UInt32} {d : Disk} {a : Option Progress} (h : S.Assembly crc d a) :
    ∃ d', (Reassembler.ingestManifest crc (S.chunker.manifestPacket S.name)).exec d =
        (.ok (Progress.step S.count a .name).1, d') ∧
      S.Assembly crc d' (Progress.step S.count a .name).2 ∧ Frame S.fileId d d' := by
  have hname : Utf8.decodeLossy (S.chunker.manifestPacket S.name).payload = S.name := Utf8.decodeLossy_encode _
  cases a with
  | none =>
    rw [Reassembler.exec_ingestManifest_none h.1, hname]
    have hsound : S.Sound _ none ⟨∅, true⟩ := ⟨@core_fresh S 0 true, rfl⟩
    obtain ⟨d', hd', ha', hf'⟩ := Core.exec_nameInto (Manifest.get_saved_self crc S.fileId _ d)
      (by rw [Manifest.get_saved_incoming, h.2]; exact hsound)
    exact ⟨d', hd', ha', (Frame.saved crc _).trans hf'⟩
  | some a =>
    obtain ⟨m, hm, hs⟩ := h
    rw [Reassembler.exec_ingestManifest_some hm (hs.parse crc), hname]
    exact Core.exec_nameInto hm hs

end Source

/-- What a packet delivers. -/
def Packet.delivery (pkt : Packet) : Delivery :=
  match pkt.ptype with
  | .manifest | .nameOnly => .name
  | _                     => .chunk pkt.chunkId.toNat

namespace Source

variable {S : Source}

/-- **One packet of the file does to its assembly what the abstract model says**, with its answer, and touches nothing
else. -/
theorem ingest_simulates {crc : Bytes → UInt32} {d : Disk} {a : Option Progress} {pkt : Packet}
    (h : S.Assembly crc d a) (hp : S.Sends pkt) :
    ∃ d', (Reassembler.ingest crc pkt).exec d = (.ok (Progress.step S.count a pkt.delivery).1, d') ∧
      S.Assembly crc d' (Progress.step S.count a pkt.delivery).2 ∧ Frame S.fileId d d' := by
  rcases hp.cases with rfl | ⟨i, hi⟩
  · exact ingestManifest_simulates h
  · have hsim := ingestChunk_simulates h hi
    have hdel : pkt.delivery = .chunk i ∧ Reassembler.ingest crc pkt = Reassembler.ingestChunk crc pkt := by
      rw [← hi.chunkId]
      unfold Packet.delivery Reassembler.ingest
      rcases hi.isChunk with ht | ht <;> rw [ht] <;> exact ⟨rfl, rfl⟩
    rw [hdel.1, hdel.2]
    exact hsim

/-- **A packet of another chunk count is turned away**, with nothing written. -/
theorem ingest_other_count {crc : Bytes → UInt32} {d : Disk} {a : Progress} {pkt : Packet} {T : Source}
    (h : S.Assembly crc d (some a)) (hp : T.Sends pkt) (hid : T.fileId = S.fileId) (hc : T.count ≠ S.count) :
    (Reassembler.ingest crc pkt).exec d = (.ok .mismatched, d) := by
  obtain ⟨m, hm, hs⟩ := h
  have hnum : m.numChunks ≠ pkt.numChunks := fun he => hc (by rw [← hp.numChunks, ← he, hs.count])
  rw [← hid, ← hp.fileId] at hm
  exact Reassembler.ingest_mismatched hm (hs.parse crc) hnum hp.ptype_ne

end Source

end Parachuter
