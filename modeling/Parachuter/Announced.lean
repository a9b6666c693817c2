import Parachuter.Raced
import Parachuter.Wire
/-!
# Announced — what is published when the packets of a file are anyone's

`ingest_chunk` checks a chunk's count and nothing else of it: neither that its id is below the count, nor that the flag of
the last chunk is on the last chunk, nor how long its payload is.  `Packet.Belongs` is what it leaves unchecked, read off
the packet and off the files the packet meets.  Where every chunk that is stored belongs, a file that `finalize` publishes
has the size its last chunk announced, and every byte of it came in the payload of an accepted packet.
-/
namespace Parachuter

open Blob (Bytes Holds)
open Calls (Res)

/-! ## A chunk that belongs where it is stored -/

/-- What `ingest_chunk` does not check of a chunk it stores under `m`, with `data` in the data file. -/
structure Packet.Belongs (pkt : Packet) (m : Manifest) (data : Bytes) : Prop where
  /-- The id is below the count. -/
  inRange : pkt.chunkId.toNat < m.numChunks.toNat
  /-- The flag of the last chunk is on the last chunk, -/
  last    : pkt.flags.isLast = true → pkt.chunkId.toNat + 1 = m.numChunks.toNat
  /-- and a first copy without the flag is of another chunk, fills its place, and ends inside the size announced. -/
  middle  : m.isSet pkt.chunkId = false → pkt.flags.isLast = false → pkt.chunkId.toNat + 1 ≠ m.numChunks.toNat ∧
    0 < m.chunkPayloadSize.toNat ∧ m.chunkPayloadSize.toNat ≤ pkt.payload.length ∧
    (m.has (m.numChunks.toNat - 1) = true → pkt.endUnder m ≤ m.fileSizeHint.toNat)
  /-- A second copy brings what is there, and announces the same size. -/
  again   : m.isSet pkt.chunkId = true → Holds data (pkt.offsetUnder m) pkt.payload ∧
    (pkt.flags.isLast = true → pkt.endUnder m = m.fileSizeHint.toNat)

instance (d : Bytes) (off : Nat) (w : Bytes) : Decidable (Holds d off w) :=
  inferInstanceAs (Decidable (∀ i, i < w.length → d[off + i]? = w[i]?))

instance (pkt : Packet) (m : Manifest) (data : Bytes) : Decidable (pkt.Belongs m data) :=
  decidable_of_iff
    (pkt.chunkId.toNat < m.numChunks.toNat ∧
      (pkt.flags.isLast = true → pkt.chunkId.toNat + 1 = m.numChunks.toNat) ∧
      (m.isSet pkt.chunkId = false → pkt.flags.isLast = false → pkt.chunkId.toNat + 1 ≠ m.numChunks.toNat ∧
        0 < m.chunkPayloadSize.toNat ∧ m.chunkPayloadSize.toNat ≤ pkt.payload.length ∧
        (m.has (m.numChunks.toNat - 1) = true → pkt.endUnder m ≤ m.fileSizeHint.toNat)) ∧
      (m.isSet pkt.chunkId = true → Holds data (pkt.offsetUnder m) pkt.payload ∧
        (pkt.flags.isLast = true → pkt.endUnder m = m.fileSizeHint.toNat)))
    ⟨fun ⟨h1, h2, h3, h4⟩ => ⟨h1, h2, h3, h4⟩, fun h => ⟨h.inRange, h.last, h.middle, h.again⟩⟩

/-! ## Sidecars that account for their data -/

/-- The sidecar `m` over `data`, where `W k b` says that an accepted packet wrote `b` at offset `k`, and `L n` that one
announced the size `n`: every chunk marked is there whole, and once the last one is, the data has the size announced. -/
structure Manifest.Accounts (W : Nat → UInt8 → Prop) (L : Nat → Prop) (m : Manifest) (data : Bytes) : Prop where
  wf     : m.Wf
  short  : data.length ≤ FsCall.OFFSET_MAX
  sized  : ∀ i, m.has i = true → m.chunkPayloadSize = 0 → m.numChunks.toNat = 1
  pieces : ∀ i, m.has i = true → i + 1 < m.numChunks.toNat → ∀ k, i * m.chunkPayloadSize.toNat ≤ k →
    k < (i + 1) * m.chunkPayloadSize.toNat → ∃ b, data[k]? = some b ∧ W k b
  length : m.has (m.numChunks.toNat - 1) = true → data.length = m.fileSizeHint.toNat ∧
    (m.numChunks.toNat - 1) * m.chunkPayloadSize.toNat ≤ m.fileSizeHint.toNat ∧ L m.fileSizeHint.toNat
  tail   : m.has (m.numChunks.toNat - 1) = true → ∀ k, (m.numChunks.toNat - 1) * m.chunkPayloadSize.toNat ≤ k →
    k < m.fileSizeHint.toNat → ∃ b, data[k]? = some b ∧ W k b

namespace Manifest.Accounts

variable {W W' : Nat → UInt8 → Prop} {L L' : Nat → Prop} {m : Manifest} {data : Bytes} {pkt : Packet}

theorem mono (h : m.Accounts W L data) (hW : ∀ k b, W k b → W' k b) (hL : ∀ n, L n → L' n) : m.Accounts W' L' data where
  wf := h.wf
  short := h.short
  sized := h.sized
  pieces i hi hlt k hlo hhi := by
    obtain ⟨b, hb, hw⟩ := h.pieces i hi hlt k hlo hhi
    exact ⟨b, hb, hW k b hw⟩
  length hlast := by
    obtain ⟨h1, h2, h3⟩ := h.length hlast
    exact ⟨h1, h2, hL _ h3⟩
  tail hlast k hlo hhi := by
    obtain ⟨b, hb, hw⟩ := h.tail hlast k hlo hhi
    exact ⟨b, hb, hW k b hw⟩

/-- A sidecar that marks nothing. -/
theorem of_clear (hwf : m.Wf) (hshort : data.length ≤ FsCall.OFFSET_MAX) (hclear : ∀ i, m.has i = false) :
    m.Accounts W L data where
  wf := hwf
  short := hshort
  sized i hi := absurd (hclear i) (by rw [hi]; simp)
  pieces i hi := absurd (hclear i) (by rw [hi]; simp)
  length hlast := absurd (hclear _) (by rw [hlast]; simp)
  tail hlast := absurd (hclear _) (by rw [hlast]; simp)

theorem rename (h : m.Accounts W L data) {name : List Char} (hname : (Utf8.encode name).length < 2 ^ 32) :
    { m with name := name }.Accounts W L data :=
  ⟨⟨h.wf.bitmap, hname⟩, h.short, h.sized, h.pieces, h.length, h.tail⟩

/-- Patching the payload size in: nothing is marked yet, or there is but one chunk. -/
theorem resize (h : m.Accounts W L data) (hz : m.chunkPayloadSize = 0) (n : UInt32) :
    { m with chunkPayloadSize := n }.Accounts W L data := by
  have hone : ∀ i, m.has i = true → m.numChunks.toNat = 1 := fun i hi => h.sized i hi hz
  refine ⟨⟨h.wf.bitmap, h.wf.name⟩, h.short, fun i hi _ => hone i hi, fun i hi hlt => ?_, fun hlast => ?_, fun hlast => ?_⟩
  · have h1 := hone i hi
    have hlt' : i + 1 < m.numChunks.toNat := hlt
    omega
  · obtain ⟨h1, -, h3⟩ := h.length hlast
    refine ⟨h1, ?_, h3⟩
    show (m.numChunks.toNat - 1) * n.toNat ≤ _
    rw [hone _ hlast, Nat.sub_self, Nat.zero_mul]
    exact Nat.zero_le _
  · intro k _ hhi
    refine h.tail hlast k ?_ hhi
    rw [hone _ hlast, Nat.sub_self, Nat.zero_mul]
    exact Nat.zero_le k

theorem placed_piece {w : Bytes} {off k : Nat} {cut : Bool} (hw : ∀ j b, w[j]? = some b → W (off + j) b) (hlo : off ≤ k)
    (hhi : k < off + w.length) : ∃ b, (Blob.place data off w cut)[k]? = some b ∧ W k b := by
  rw [Blob.getElem?_place_inside data w cut hlo hhi, List.getElem?_eq_getElem (by omega : k - off < w.length)]
  refine ⟨_, rfl, ?_⟩
  have hwrote := hw (k - off) _ (List.getElem?_eq_getElem (by omega : k - off < w.length))
  rwa [Nat.add_sub_cancel' hlo] at hwrote

/-- A byte accounted for stays so when a piece is placed that is, too. -/
theorem placed_byte {w : Bytes} {off k : Nat} {cut : Bool} (hk : ∃ b, data[k]? = some b ∧ W k b)
    (hw : ∀ j b, w[j]? = some b → W (off + j) b) (hcut : cut = true → k < off + w.length) :
    ∃ b, (Blob.place data off w cut)[k]? = some b ∧ W k b := by
  by_cases hin : off ≤ k ∧ k < off + w.length
  · exact placed_piece hw hin.1 hin.2
  · obtain ⟨b, hb, hWb⟩ := hk
    exact ⟨b, Blob.getElem?_place_outside hb (by omega) hcut, hWb⟩

/-- What a chunk marks, it or another marked before. -/
theorem has_set {i : UInt32} {j : Nat} (h : (m.set i).has j = true) : j = i.toNat ∨ m.has j = true :=
  Bitmap.getBit_of_setBit h

/-- The place of a marked chunk ends where the last chunk begins, or before. -/
theorem piece_le {i k c n : Nat} (hlt : i + 1 < n) (hk : k < (i + 1) * c) : k < (n - 1) * c :=
  Nat.lt_of_lt_of_le hk (Nat.mul_le_mul_right c (by omega))

/-- **The first copy of the last chunk** ends the file and announces its size. -/
theorem store_last (h : m.Accounts W L data) (hb : pkt.Belongs m data) (hlast : pkt.flags.isLast = true)
    (hend : pkt.endUnder m ≤ FsCall.OFFSET_MAX) (hw : ∀ j b, pkt.payload[j]? = some b → W (pkt.offsetUnder m + j) b)
    (hL : L (pkt.endUnder m)) (hone : m.chunkPayloadSize = 0 → m.numChunks.toNat = 1) : ((Reassembler.hinted pkt m).set pkt.chunkId).Accounts W L
      (Blob.place data (pkt.offsetUnder m) pkt.payload pkt.flags.isLast) := by
  have hid := hb.last hlast
  have hpos : 0 < m.numChunks.toNat := by omega
  have hoff : pkt.offsetUnder m = (m.numChunks.toNat - 1) * m.chunkPayloadSize.toNat := by
    rw [Packet.offsetUnder, ← hid, Nat.add_sub_cancel]
  have hhint : (Reassembler.hinted pkt m) = { m with fileSizeHint := UInt64.ofNat (pkt.endUnder m) } := by
    rw [Reassembler.hinted, if_pos hlast]
    rfl
  have hsize : (UInt64.ofNat (pkt.endUnder m)).toNat = pkt.endUnder m := by
    rw [UInt64.toNat_ofNat', Nat.mod_eq_of_lt]
    exact Nat.lt_of_le_of_lt hend (by decide)
  have hlen : (Blob.place data (pkt.offsetUnder m) pkt.payload pkt.flags.isLast).length = pkt.endUnder m := by
    rw [Blob.length_place, if_pos hlast]
    rfl
  rw [hhint]
  refine ⟨⟨(Bitmap.length_setBit _ _).trans h.wf.bitmap, h.wf.name⟩, by rw [hlen]; exact hend, fun i _ hz => hone hz,
    fun i hi hlt k hlo hhi => ?_, fun _ => ⟨?_, ?_, ?_⟩, fun _ k hlo hhi => ?_⟩
  · have hne : i ≠ pkt.chunkId.toNat := by
      rintro rfl
      have hlt' : pkt.chunkId.toNat + 1 < m.numChunks.toNat := hlt
      omega
    have hbyte := h.pieces i ((has_set hi).resolve_left hne) hlt k hlo hhi
    refine placed_byte hbyte hw (fun _ => ?_)
    have hbefore := piece_le hlt hhi
    show k < pkt.offsetUnder m + pkt.payload.length
    rw [hoff]
    exact Nat.lt_add_right _ hbefore
  · exact hlen.trans hsize.symm
  · show (m.numChunks.toNat - 1) * m.chunkPayloadSize.toNat ≤ (UInt64.ofNat (pkt.endUnder m)).toNat
    rw [hsize, ← hoff]
    exact Nat.le_add_right _ _
  · show L (UInt64.ofNat (pkt.endUnder m)).toNat
    rw [hsize]
    exact hL
  · have hlo' : pkt.offsetUnder m ≤ k := by
      rw [hoff]
      exact hlo
    have hhi' : k < (UInt64.ofNat (pkt.endUnder m)).toNat := hhi
    rw [hsize] at hhi'
    exact placed_piece hw hlo' hhi'

/-- **The first copy of any other chunk** fills its place, and does not move the end once that is announced. -/
theorem store_middle (h : m.Accounts W L data) (hb : pkt.Belongs m data) (hclear : m.isSet pkt.chunkId = false)
    (hlast : pkt.flags.isLast = false) (hend : pkt.endUnder m ≤ FsCall.OFFSET_MAX)
    (hw : ∀ j b, pkt.payload[j]? = some b → W (pkt.offsetUnder m + j) b) :
    ((Reassembler.hinted pkt m).set pkt.chunkId).Accounts W L
      (Blob.place data (pkt.offsetUnder m) pkt.payload pkt.flags.isLast) := by
  obtain ⟨hne, hpos, hfull, hinside⟩ := hb.middle hclear hlast
  have hhint : Reassembler.hinted pkt m = m := by
    rw [Reassembler.hinted, hlast, if_neg Bool.false_ne_true]
  have hlen : (Blob.place data (pkt.offsetUnder m) pkt.payload pkt.flags.isLast).length =
      max data.length (pkt.endUnder m) := by
    rw [Blob.length_place, hlast, if_neg Bool.false_ne_true]
    rfl
  have hcut : ∀ k, pkt.flags.isLast = true → k < pkt.offsetUnder m + pkt.payload.length :=
    fun k ht => absurd (hlast.symm.trans ht) Bool.false_ne_true
  have hrange := hb.inRange
  have hbefore : ∀ {j}, (m.set pkt.chunkId).has j = true → j + 1 = m.numChunks.toNat → m.has j = true := by
    intro j hj hlastj
    exact (has_set hj).resolve_left (by rintro rfl; exact hne hlastj)
  rw [hhint]
  refine ⟨⟨(Bitmap.length_setBit _ _).trans h.wf.bitmap, h.wf.name⟩, ?_, fun i _ hz => ?_, fun i hi hlt k hlo hhi => ?_,
    fun hl => ?_, fun hl k hlo hhi => ?_⟩
  · rw [hlen]
    exact max_le h.short hend
  · have hz' : m.chunkPayloadSize = 0 := hz
    rw [hz'] at hpos
    exact absurd hpos (Nat.lt_irrefl 0)
  · rcases has_set hi with rfl | hi
    · -- the chunk's own place
      have hstop : (pkt.chunkId.toNat + 1) * m.chunkPayloadSize.toNat ≤ pkt.offsetUnder m + pkt.payload.length := by
        rw [Nat.add_mul, Nat.one_mul]
        exact Nat.add_le_add_left hfull _
      exact placed_piece hw hlo (Nat.lt_of_lt_of_le hhi hstop)
    · exact placed_byte (h.pieces i hi hlt k hlo hhi) hw (hcut k)
  · have hl' : m.has (m.numChunks.toNat - 1) = true := hbefore hl (by show _ - 1 + 1 = _; omega)
    obtain ⟨h1, h2, h3⟩ := h.length hl'
    refine ⟨?_, h2, h3⟩
    rw [hlen, h1]
    exact max_eq_left (hinside hl')
  · have hl' : m.has (m.numChunks.toNat - 1) = true := hbefore hl (by show _ - 1 + 1 = _; omega)
    exact placed_byte (h.tail hl' k hlo hhi) hw (hcut k)

/-- **A first copy**, of whatever chunk.  A sidecar without a bitmap marks nothing. -/
theorem store_first (h : m.Accounts W L data) (hb : pkt.Belongs m data) (hclear : m.isSet pkt.chunkId = false)
    (hend : pkt.endUnder m ≤ FsCall.OFFSET_MAX)
    (hsingle : m.chunkPayloadSize = 0 → (pkt.flags.isLast && decide (1 < m.numChunks)) = false)
    (hnew : m.numChunks.toNat ≤ 2 ^ 32 - 8 → (∀ j b, pkt.payload[j]? = some b → W (pkt.offsetUnder m + j) b) ∧
      (pkt.flags.isLast = true → L (pkt.endUnder m))) :
    ((Reassembler.hinted pkt m).set pkt.chunkId).Accounts W L
      (Blob.place data (pkt.offsetUnder m) pkt.payload pkt.flags.isLast) := by
  by_cases hn : m.numChunks.toNat ≤ 2 ^ 32 - 8
  · obtain ⟨hw, hL⟩ := hnew hn
    by_cases hlast : pkt.flags.isLast = true
    · refine h.store_last hb hlast hend hw (hL hlast) (fun hz => ?_)
      have hfew : ¬ 1 < m.numChunks := by
        simpa [hlast] using hsingle hz
      have hrange := hb.inRange
      have hle : m.numChunks.toNat ≤ 1 := UInt32.le_iff_toNat_le.1 (UInt32.not_lt.1 hfew)
      omega
    · exact h.store_middle hb hclear (Bool.eq_false_iff.2 hlast) hend hw
  · have hnone : m.bitmap = [] := by
      rw [← List.length_eq_zero_iff, h.wf.bitmap, bitmapLen_of_wraps (by omega)]
    refine .of_clear ⟨?_, ?_⟩ ?_ (fun i => ?_)
    · simp [Manifest.set, h.wf.bitmap]
    · have hname := h.wf.name
      unfold Reassembler.hinted
      split <;> exact hname
    · rw [Blob.length_place]
      split
      · exact hend
      · exact max_le h.short hend
    · simp [Manifest.has, Manifest.set, hnone, Bitmap.setBit, Bitmap.getBit]

/-- **Another copy** changes no byte, nor the size once that is announced. -/
theorem store_again (h : m.Accounts W L data) (hb : pkt.Belongs m data) (hset : m.isSet pkt.chunkId = true)
    (hend : pkt.endUnder m ≤ FsCall.OFFSET_MAX) :
    m.Accounts W L (Blob.place data (pkt.offsetUnder m) pkt.payload pkt.flags.isLast) := by
  obtain ⟨hholds, hsame⟩ := hb.again hset
  have hlastid : pkt.flags.isLast = true → m.has (m.numChunks.toNat - 1) = true := by
    intro hlast
    rw [← hb.last hlast, Nat.add_sub_cancel]
    exact hset
  have hlen : (Blob.place data (pkt.offsetUnder m) pkt.payload pkt.flags.isLast).length =
      if pkt.flags.isLast then pkt.endUnder m else max data.length (pkt.endUnder m) := Blob.length_place _ _ _ _
  -- where a copy of the last chunk cuts, the data ended already
  have hcut : ∀ {k b}, data[k]? = some b → pkt.flags.isLast = true → k < pkt.offsetUnder m + pkt.payload.length := by
    intro k b hk hlast
    have hsize := (h.length (hlastid hlast)).1
    rw [← hsame hlast] at hsize
    rw [← Packet.endUnder, ← hsize]
    exact (List.getElem?_eq_some_iff.1 hk).1
  have hkeep : ∀ {k}, (∃ b, data[k]? = some b ∧ W k b) →
      ∃ b, (Blob.place data (pkt.offsetUnder m) pkt.payload pkt.flags.isLast)[k]? = some b ∧ W k b := by
    rintro k ⟨b, hk, hWk⟩
    exact ⟨b, Blob.getElem?_place_again hholds hk (hcut hk), hWk⟩
  refine ⟨h.wf, ?_, h.sized, fun i hi hlt k hlo hhi => hkeep (h.pieces i hi hlt k hlo hhi), fun hl => ?_,
    fun hl k hlo hhi => hkeep (h.tail hl k hlo hhi)⟩
  · rw [hlen]
    split
    · exact hend
    · exact max_le h.short hend
  · obtain ⟨h1, h2, h3⟩ := h.length hl
    refine ⟨?_, h2, h3⟩
    rw [hlen]
    split
    · rename_i hlast
      exact hsame hlast
    · rw [h1]
      refine max_eq_left ?_
      by_cases hnil : pkt.payload = []
      · have hrange := hb.inRange
        have hle := Nat.mul_le_mul_right m.chunkPayloadSize.toNat (by omega : pkt.chunkId.toNat ≤ m.numChunks.toNat - 1)
        rw [Packet.endUnder, hnil]
        exact Nat.le_trans hle h2
      · rw [← h1]
        exact hholds.le_length hnil

end Manifest.Accounts

/-! ## One packet -/

/-- The two files of an assembly: neither is there, or the sidecar accounts for the data. -/
def Disk.Accounted (crc : Bytes → UInt32) (W : Nat → UInt8 → Prop) (L : Nat → Prop) (id : FileId) (d : Disk) : Prop :=
  (d.get (.manifest id) = none ∧ d.get (.incoming id) = none) ∨
    ∃ m : Manifest, d.get (.manifest id) = some (m.bytes crc) ∧ m.Accounts W L ((d.get (.incoming id)).getD []) ∧
      (d.get (.incoming id) ≠ none → 0 < m.numChunks.toNat)

namespace Disk.Accounted

variable {crc : Bytes → UInt32} {W W' : Nat → UInt8 → Prop} {L L' : Nat → Prop} {id : FileId} {d d' : Disk}

theorem mono (h : d.Accounted crc W L id) (hW : ∀ k b, W k b → W' k b) (hL : ∀ n, L n → L' n) :
    d.Accounted crc W' L' id := by
  rcases h with h | ⟨m, hm, ha, hp⟩
  · exact .inl h
  · exact .inr ⟨m, hm, ha.mono hW hL, hp⟩

theorem found (h : d.Accounted crc W L id) : ∃ o, Reassembler.Found crc d id o ∧
    ∀ m, o = some m → m.Accounts W L ((d.get (.incoming id)).getD []) ∧
      (d.get (.incoming id) ≠ none → 0 < m.numChunks.toNat) := by
  rcases h with ⟨hnone, -⟩ | ⟨m, hm, ha, hp⟩
  · exact ⟨none, hnone, fun m hm => by cases hm⟩
  · exact ⟨some m, ⟨hm, ha.wf⟩, fun m' hm' => by cases hm'; exact ⟨ha, hp⟩⟩

theorem short (h : d.Accounted crc W L id) : ((d.get (.incoming id)).getD []).length ≤ FsCall.OFFSET_MAX := by
  rcases h with ⟨-, hnone⟩ | ⟨m, -, ha, -⟩
  · rw [hnone]
    exact Nat.zero_le _
  · exact ha.short

theorem congr (h : d.Accounted crc W L id) (hm : d'.get (.manifest id) = d.get (.manifest id))
    (hi : d'.get (.incoming id) = d.get (.incoming id)) : d'.Accounted crc W L id := by
  unfold Disk.Accounted
  rw [hm, hi]
  exact h

theorem of_saved {m : Manifest} (ha : m.Accounts W L ((d.get (.incoming id)).getD []))
    (hpos : d.get (.incoming id) ≠ none → 0 < m.numChunks.toNat) : (m.saved crc id d).Accounted crc W L id := by
  refine .inr ⟨m, Manifest.get_saved_self _ _ _ _, ?_, ?_⟩
  · rw [Manifest.get_saved_incoming]
    exact ha
  · rw [Manifest.get_saved_incoming]
    exact hpos

theorem of_put {m : Manifest} {data : Bytes} (hm : d.get (.manifest id) = some (m.bytes crc)) (ha : m.Accounts W L data)
    (hpos : 0 < m.numChunks.toNat) : (d.put (.incoming id) data).Accounted crc W L id := by
  refine .inr ⟨m, ?_, ?_, fun _ => hpos⟩
  · rw [Disk.get_put_ne _ _ (by simp), hm]
  · rw [Disk.get_put_self, Option.getD_some]
    exact ha

theorem finalize (h : d.Accounted crc W L id) (finals : Path) :
    ((Reassembler.finalize crc finals id).exec d).2.Accounted crc W L id := by
  rcases Reassembler.finalize_holding crc finals id d with hall | ⟨hman, hdata, -⟩
  · exact h.congr (hall _) (hall _)
  · exact .inl ⟨hman, hdata⟩

end Disk.Accounted

namespace Reassembler

variable {crc : Bytes → UInt32} {W W' : Nat → UInt8 → Prop} {L L' : Nat → Prop} {d : Disk} {pkt : Packet} {m : Manifest}

/-- **A manifest** leaves the data alone, and names the assembly or starts it. -/
theorem accounted_ingestManifest (h : d.Accounted crc W L pkt.fileId) (hlen : pkt.payload.length < 2 ^ 30) :
    ((ingestManifest crc pkt).exec d).2.Accounted crc W L pkt.fileId := by
  have hname : (Utf8.encode (Utf8.decodeLossy pkt.payload)).length < 2 ^ 32 := by
    have hle := Utf8.length_encode_decodeLossy_le pkt.payload
    omega
  obtain ⟨o, hf, ho⟩ := h.found
  cases hs : namedUnder crc d pkt with
  | none =>
    rw [ingestManifest_turned hf hs]
    exact h
  | some m =>
    obtain ⟨d₀, hd₀, hprep⟩ := ingestManifest_named hf hs
    have hacc : m.Accounts W L ((d.get (.incoming pkt.fileId)).getD []) ∧
        (d.get (.incoming pkt.fileId) ≠ none → 0 < m.numChunks.toNat) := by
      rcases namedUnder_cases hf hs with ⟨rfl, rfl⟩ | ⟨m₀, rfl, -, rfl⟩ | rfl
      · refine ⟨.of_clear (wf_fresh hname) h.short (fun i => Manifest.has_replicate _ i), fun hsome => ?_⟩
        rcases h with ⟨-, hdata⟩ | ⟨m, hm, -⟩
        · exact absurd hdata hsome
        · exact absurd (hm.symm.trans hf) (Option.some_ne_none _)
      · exact ⟨(ho m₀ rfl).1.rename hname, (ho m₀ rfl).2⟩
      · exact ho m rfl
    rw [hd₀, outcome_snd]
    refine .inr ⟨m, hprep.sidecar, ?_⟩
    rw [hprep.incoming]
    exact hacc

theorem accounts_storedUnder {data : Bytes} {o : Option Manifest} (hf : Found crc d pkt.fileId o)
    (ho : ∀ m, o = some m → m.Accounts W L data) (hshort : data.length ≤ FsCall.OFFSET_MAX)
    (h : storedUnder crc d pkt = some m) : m.Accounts W L data := by
  obtain ⟨-, -, ⟨-, rfl⟩ | ⟨m₀, hm₀, hz, rfl⟩ | hm⟩ := storedUnder_cases hf h
  · exact .of_clear (wf_fresh (by decide)) hshort (fun i => Manifest.has_replicate _ i)
  · exact (ho m₀ hm₀).resize hz _
  · exact ho m hm

end Reassembler

/-- **A chunk**: where it belongs, what is stored of it is accounted for, if it is accepted by what the packet itself
brings. -/
theorem Reassembler.accounted_ingestChunk {crc : Bytes → UInt32} {W W' : Nat → UInt8 → Prop} {L L' : Nat → Prop} {d : Disk}
    {pkt : Packet} (h : d.Accounted crc W L pkt.fileId) (hW : ∀ k b, W k b → W' k b) (hL : ∀ n, L n → L' n)
    (hfit : ∀ m, storedUnder crc d pkt = some m → pkt.Belongs m ((d.get (.incoming pkt.fileId)).getD []))
    (hnew : Taken ((ingestChunk crc pkt).exec d).1 → ∀ m, storedUnder crc d pkt = some m →
      (∀ j b, pkt.payload[j]? = some b → W' (pkt.offsetUnder m + j) b) ∧ (pkt.flags.isLast = true → L' (pkt.endUnder m))) :
    ((ingestChunk crc pkt).exec d).2.Accounted crc W' L' pkt.fileId := by
  obtain ⟨o, hf, ho⟩ := h.found
  rcases ingestChunk_cases hf h.short with ⟨-, heq⟩ | ⟨m, d₀, hs, hprep, hcase⟩
  · rw [heq]
    exact h.mono hW hL
  have hman := hprep.sidecar
  have ha : m.Accounts W' L' ((d.get (.incoming pkt.fileId)).getD []) :=
    (accounts_storedUnder hf (fun m hm => (ho m hm).1) h.short hs).mono hW hL
  have hb := hfit m hs
  have hpos : 0 < m.numChunks.toNat := Nat.zero_lt_of_lt hb.inRange
  obtain ⟨hcount, hsingle, -⟩ := storedUnder_cases hf hs
  rcases hcase with ⟨-, heq⟩ | ⟨hend, hset, heq⟩ | ⟨hend, hclear, heq⟩
  · rw [heq]
    exact .of_put hman ha hpos
  · rw [heq]
    exact .of_put hman (ha.store_again hb hset hend) hpos
  · rw [heq] at hnew ⊢
    rw [outcome_snd]
    refine .of_saved ?_ (fun _ => ?_)
    · rw [Disk.get_put_self, Option.getD_some]
      refine ha.store_first hb hclear hend ?_ (fun hn => hnew ?_ m hs)
      · rw [hcount]
        exact hsingle
      · refine taken_outcome _ ?_ ?_
        · simpa [Manifest.set] using ha.wf.bitmap
        · simpa [Manifest.set] using hn
    · show 0 < (hinted pkt m).numChunks.toNat
      rw [numChunks_hinted]
      exact hpos

/-! ## Runs -/

/-- Wherever the chunk would be stored, it belongs. -/
def Packet.Fits (crc : Bytes → UInt32) (d : Disk) (pkt : Packet) : Prop :=
  (pkt.ptype = .data ∨ pkt.ptype = .retransmit) →
    ∀ m ∈ Reassembler.storedUnder crc d pkt, pkt.Belongs m ((d.get (.incoming pkt.fileId)).getD [])

instance (crc : Bytes → UInt32) (d : Disk) (pkt : Packet) : Decidable (pkt.Fits crc d) :=
  inferInstanceAs (Decidable ((pkt.ptype = .data ∨ pkt.ptype = .retransmit) →
    ∀ m ∈ Reassembler.storedUnder crc d pkt, pkt.Belongs m ((d.get (.incoming pkt.fileId)).getD [])))

theorem Reassembler.ingest_chunk {crc : Bytes → UInt32} {pkt : Packet} (ht : pkt.ptype = .data ∨ pkt.ptype = .retransmit) :
    ingest crc pkt = ingestChunk crc pkt := by
  unfold ingest
  rcases ht with ht | ht
  · rw [ht]
  · rw [ht]

namespace ReceiverStep

/-- The step is of the id, and its packet came through the socket's buffer. -/
def Of (crc : Bytes → UInt32) (id : FileId) : ReceiverStep → Prop
  | .ingest pkt => pkt.fileId = id ∧ ∃ buf : Bytes, Packet.decode crc (buf.take MAX_CHUNK_SIZE) = .ok pkt
  | .finalize j => j = id

/-- Every packet of the run fits the disk it meets. -/
def RunFits (crc : Bytes → UInt32) (finals : Path) : Disk → List ReceiverStep → Prop
  | _, []                  => True
  | d, .ingest pkt :: es   => pkt.Fits crc d ∧ RunFits crc finals (apply crc finals d (.ingest pkt)) es
  | d, .finalize id :: es  => RunFits crc finals (apply crc finals d (.finalize id)) es

instance decidableRunFits (crc : Bytes → UInt32) (finals : Path) :
    (d : Disk) → (es : List ReceiverStep) → Decidable (RunFits crc finals d es)
  | _, []                 => .isTrue trivial
  | d, .ingest pkt :: es  =>
    have := decidableRunFits crc finals (apply crc finals d (.ingest pkt)) es
    inferInstanceAs (Decidable (pkt.Fits crc d ∧ RunFits crc finals (apply crc finals d (.ingest pkt)) es))
  | d, .finalize id :: es => decidableRunFits crc finals (apply crc finals d (.finalize id)) es

section

variable (crc : Bytes → UInt32) (finals : Path) (d₀ : Disk)

/-- In the run, a chunk was accepted and stored under `m`. -/
def Accepted (es : List ReceiverStep) (pkt : Packet) (m : Manifest) : Prop :=
  ∃ pre post, es = pre ++ .ingest pkt :: post ∧ (pkt.ptype = .data ∨ pkt.ptype = .retransmit) ∧
    Reassembler.Taken ((Reassembler.ingest crc pkt).exec (run crc finals d₀ pre)).1 ∧
    Reassembler.storedUnder crc (run crc finals d₀ pre) pkt = some m

/-- The payload of an accepted packet put `b` at offset `k`. -/
def Wrote (es : List ReceiverStep) (k : Nat) (b : UInt8) : Prop :=
  ∃ pkt m, Accepted crc finals d₀ es pkt m ∧ pkt.offsetUnder m ≤ k ∧ pkt.payload[k - pkt.offsetUnder m]? = some b

/-- An accepted packet flagged last announced the size `n`. -/
def Announced (es : List ReceiverStep) (n : Nat) : Prop :=
  ∃ pkt m, Accepted crc finals d₀ es pkt m ∧ pkt.flags.isLast = true ∧ pkt.endUnder m = n

end

variable {crc : Bytes → UInt32} {finals : Path} {d₀ : Disk}

theorem run_append (d : Disk) (es es' : List ReceiverStep) :
    run crc finals d (es ++ es') = run crc finals (run crc finals d es) es' := List.foldl_append ..

theorem Accepted.append {es : List ReceiverStep} {pkt : Packet} {m : Manifest} (h : Accepted crc finals d₀ es pkt m)
    (es' : List ReceiverStep) : Accepted crc finals d₀ (es ++ es') pkt m := by
  obtain ⟨pre, post, rfl, h⟩ := h
  exact ⟨pre, post ++ es', by rw [List.append_assoc]; rfl, h⟩

theorem RunFits.split {pre post : List ReceiverStep} {d : Disk} (h : RunFits crc finals d (pre ++ post)) :
    RunFits crc finals d pre ∧ RunFits crc finals (run crc finals d pre) post := by
  induction pre generalizing d with
  | nil => exact ⟨trivial, h⟩
  | cons e pre ih =>
    cases e with
    | ingest pkt =>
      obtain ⟨hp, h⟩ := h
      exact ⟨⟨hp, (ih h).1⟩, (ih h).2⟩
    | finalize id => exact ih h

/-- **One step** keeps the account of the run. -/
theorem accounted_apply {es : List ReceiverStep} {id : FileId} {e : ReceiverStep} (he : e.Of crc id)
    (h : (run crc finals d₀ es).Accounted crc (Wrote crc finals d₀ es) (Announced crc finals d₀ es) id)
    (hfit : RunFits crc finals (run crc finals d₀ es) [e]) :
    (run crc finals d₀ (es ++ [e])).Accounted crc (Wrote crc finals d₀ (es ++ [e])) (Announced crc finals d₀ (es ++ [e])) id := by
  have hW : ∀ k b, Wrote crc finals d₀ es k b → Wrote crc finals d₀ (es ++ [e]) k b := by
    rintro k b ⟨pkt, m, hacc, hb⟩
    exact ⟨pkt, m, hacc.append _, hb⟩
  have hL : ∀ n, Announced crc finals d₀ es n → Announced crc finals d₀ (es ++ [e]) n := by
    rintro n ⟨pkt, m, hacc, hn⟩
    exact ⟨pkt, m, hacc.append _, hn⟩
  rw [run_append]
  cases e with
  | finalize j =>
    obtain rfl : j = id := he
    exact (h.finalize finals).mono hW hL
  | ingest pkt =>
    obtain ⟨rfl, buf, hbuf⟩ := he
    have hlen : pkt.payload.length < 2 ^ 30 := Nat.lt_trans (payload_lt_of_decode hbuf) (by decide)
    show ((Reassembler.ingest crc pkt).exec (run crc finals d₀ es)).2.Accounted crc _ _ pkt.fileId
    have hfits : pkt.Fits crc (run crc finals d₀ es) := hfit.1
    -- a chunk that is accepted is in the run's account from here on
    have hchunk : (pkt.ptype = .data ∨ pkt.ptype = .retransmit) →
        ((Reassembler.ingest crc pkt).exec (run crc finals d₀ es)).2.Accounted crc (Wrote crc finals d₀ (es ++ [.ingest pkt]))
          (Announced crc finals d₀ (es ++ [.ingest pkt])) pkt.fileId := by
      intro ht
      have hingest := @Reassembler.ingest_chunk crc pkt ht
      have hacc : Reassembler.Taken ((Reassembler.ingestChunk crc pkt).exec (run crc finals d₀ es)).1 → ∀ m,
          Reassembler.storedUnder crc (run crc finals d₀ es) pkt = some m →
          Accepted crc finals d₀ (es ++ [.ingest pkt]) pkt m :=
        fun htaken m hm => ⟨es, [], rfl, ht, by rw [hingest]; exact htaken, hm⟩
      rw [hingest]
      refine Reassembler.accounted_ingestChunk h hW hL (hfits ht) (fun htaken m hm => ⟨fun j b hb => ?_, fun hlast => ?_⟩)
      · refine ⟨pkt, m, hacc htaken m hm, Nat.le_add_right _ _, ?_⟩
        rw [Nat.add_sub_cancel_left]
        exact hb
      · exact ⟨pkt, m, hacc htaken m hm, hlast, rfl⟩
    have hmanifest := (Reassembler.accounted_ingestManifest h hlen).mono hW hL
    cases ht : pkt.ptype with
    | data => exact hchunk (.inl ht)
    | retransmit => exact hchunk (.inr ht)
    | manifest =>
      unfold Reassembler.ingest
      rw [ht]
      exact hmanifest
    | nameOnly =>
      unfold Reassembler.ingest
      rw [ht]
      exact hmanifest
    | heartbeat =>
      unfold Reassembler.ingest
      rw [ht]
      exact h.mono hW hL

theorem accounted_run {id : FileId} (es : List ReceiverStep) (he : ∀ e ∈ es, e.Of crc id)
    (hfresh : d₀.Accounted crc (Wrote crc finals d₀ []) (Announced crc finals d₀ []) id) (hfit : RunFits crc finals d₀ es) :
    (run crc finals d₀ es).Accounted crc (Wrote crc finals d₀ es) (Announced crc finals d₀ es) id := by
  induction es using List.reverseRecOn with
  | nil => exact hfresh
  | append_singleton es e ih =>
    obtain ⟨hbefore, hlast⟩ := hfit.split
    exact accounted_apply (he e (by simp)) (ih (fun e' h' => he e' (List.mem_append_left _ h')) hbefore) hlast

end ReceiverStep

/-! ## Publishing -/

namespace Reassembler

variable {crc : Bytes → UInt32} {finals : Path} {d d' : Disk} {id : FileId} {p : Path}

/-- **What a publish that succeeds has done**: the data lies at the place. -/
theorem publish_ok {dest : Path} (h : (publish id dest).exec d = (.ok p, d')) :
    p = dest ∧ ∃ b, d.get (.incoming id) = some b ∧ d'.node dest = some (.file b) := by
  obtain ⟨r, d₁, hparent, hget⟩ := createParent_holding dest d
  unfold publish at h
  rw [Calls.exec_bind, hparent] at h
  cases r with
  | err e => cases h
  | panic => cases h
  | crash => cases h
  | ok u =>
    rw [Calls.andThen_ok, Calls.exec_bind] at h
    rcases moveInto_cases id dest d₁ with ⟨b, hb, hmove⟩ | ⟨e, hmove⟩
    · rw [hmove, Calls.andThen_ok, Calls.exec_bind] at h
      cases hman : ((d₁.putFile dest b).del (.incoming id)).get (.manifest id) with
      | none =>
        have hrem : (io (.remove (.manifest id))).exec ((d₁.putFile dest b).del (.incoming id)) =
            (.err (.io .notFound), (d₁.putFile dest b).del (.incoming id)) :=
          exec_io (c := .remove (.manifest id)) (r := .error .notFound) (by simp only [FsCall.sem, hman])
        rw [hrem] at h
        cases h
      | some buf =>
        rw [exec_remove hman] at h
        cases h
        exact ⟨rfl, b, by rw [← hget, hb], Disk.node_putFile_self d₁ _ b⟩
    · rw [hmove] at h
      cases h

/-- **What a finalise that succeeds found**: a complete sidecar with a name, and the data, which it published. -/
theorem finalize_ok {o : Option Manifest} (hf : Found crc d id o) (h : (finalize crc finals id).exec d = (.ok p, d')) :
    ∃ m b, o = some m ∧ m.isComplete = some true ∧ d.get (.incoming id) = some b ∧ d'.node p = some (.file b) := by
  unfold finalize at h
  rw [Calls.exec_bind] at h
  cases o with
  | none =>
    rw [Manifest.exec_open_none hf] at h
    cases h
  | some m =>
    rw [Manifest.exec_open_some hf.1 (Manifest.parse_bytes crc m hf.2), Calls.andThen_ok] at h
    split at h
    · cases h
    · cases h
    · rename_i hc
      split at h
      · cases h
      · obtain ⟨rfl, b, hb, hn⟩ := publish_ok h
        exact ⟨m, b, rfl, hc, hb, hn⟩

end Reassembler

/-- **The data under a complete sidecar** has the size announced, and every byte of it is accounted for. -/
theorem Manifest.Accounts.complete {W : Nat → UInt8 → Prop} {L : Nat → Prop} {m : Manifest} {data : Bytes}
    (h : m.Accounts W L data) (hc : m.isComplete = some true) (hpos : 0 < m.numChunks.toNat) :
    data.length = m.fileSizeHint.toNat ∧ L m.fileSizeHint.toNat ∧ ∀ k b, data[k]? = some b → W k b := by
  have hn : m.numChunks.toNat ≤ 2 ^ 32 - 8 := by
    by_contra hlt
    rw [isComplete_of_wraps h.wf.bitmap (by omega)] at hc
    cases hc
  have hall : ∀ i, i < m.numChunks.toNat → m.has i = true := by
    rw [isComplete_eq m h.wf.bitmap hn] at hc
    simpa using hc
  have hlast := hall (m.numChunks.toNat - 1) (by omega)
  obtain ⟨hlen, hle, hL⟩ := h.length hlast
  refine ⟨hlen, hL, fun k b hk => ?_⟩
  have hlt : k < m.fileSizeHint.toNat := by
    rw [← hlen]
    exact (List.getElem?_eq_some_iff.1 hk).1
  -- the byte lies in the place of the last chunk, or of the one its offset says
  obtain ⟨b', hb', hW⟩ : ∃ b', data[k]? = some b' ∧ W k b' := by
    by_cases htail : (m.numChunks.toNat - 1) * m.chunkPayloadSize.toNat ≤ k
    · exact h.tail hlast k htail hlt
    · have hk' : k < (m.numChunks.toNat - 1) * m.chunkPayloadSize.toNat := Nat.lt_of_not_le htail
      have hi : k / m.chunkPayloadSize.toNat < m.numChunks.toNat - 1 := Nat.div_lt_of_lt_mul (by rwa [Nat.mul_comm])
      have hcps : 0 < m.chunkPayloadSize.toNat := Nat.pos_of_mul_pos_left (Nat.zero_lt_of_lt hk')
      refine h.pieces (k / m.chunkPayloadSize.toNat) (hall _ (by omega)) (by omega) k ?_ ?_
      · exact Nat.div_mul_le_self _ _
      · rw [Nat.mul_comm]
        exact Nat.lt_mul_div_succ k hcps
  rw [hk] at hb'
  cases hb'
  exact hW

open ReceiverStep (RunFits Wrote Announced)

/-- **What is published is announced and written.**  Where every chunk of a run of packets of one id belongs where it is
stored, a finalise that succeeds publishes a file of the size that a packet flagged last announced and the sidecar holds,
and every byte of it is of an accepted packet's payload, at its offset; and a chunk whose id is not below its count changes
nothing. -/
theorem published_as_announced (crc : Bytes → UInt32) (finals : Path) (sameFs : Bool) (id : FileId)
    (es : List ReceiverStep) (he : ∀ e ∈ es, e.Of crc id) (hfit : RunFits crc finals (Disk.fresh finals sameFs) es) :
    let d := ReceiverStep.run crc finals (Disk.fresh finals sameFs) es
    (∀ p d', (Reassembler.finalize crc finals id).exec d = (.ok p, d') → ∃ m b, d.sidecar crc id = some m ∧
      d'.node p = some (.file b) ∧ b.length = m.fileSizeHint.toNat ∧
      Announced crc finals (Disk.fresh finals sameFs) es b.length ∧
      ∀ k v, b[k]? = some v → Wrote crc finals (Disk.fresh finals sameFs) es k v) ∧
    ∀ pre pkt post, es = pre ++ .ingest pkt :: post → (pkt.ptype = .data ∨ pkt.ptype = .retransmit) →
      pkt.numChunks ≤ pkt.chunkId →
      ((Reassembler.ingest crc pkt).exec (ReceiverStep.run crc finals (Disk.fresh finals sameFs) pre)).2 =
        ReceiverStep.run crc finals (Disk.fresh finals sameFs) pre := by
  intro d
  have hfresh : ∀ W L, (Disk.fresh finals sameFs).Accounted crc W L id := fun W L => .inl ⟨rfl, rfl⟩
  refine ⟨fun p d' hp => ?_, fun pre pkt post hs ht hrange => ?_⟩
  · have hacc := ReceiverStep.accounted_run es he (hfresh _ _) hfit
    obtain ⟨o, hf, ho⟩ := hacc.found
    obtain ⟨m, b, rfl, hc, hb, hn⟩ := Reassembler.finalize_ok hf hp
    obtain ⟨ha, hpos⟩ := ho m rfl
    obtain ⟨hlen, hL, hW⟩ := ha.complete hc (hpos (by rw [hb]; exact Option.some_ne_none b))
    rw [hb, Option.getD_some] at hlen hW
    refine ⟨m, b, hf.sidecar, hn, hlen, ?_, hW⟩
    rw [hlen]
    exact hL
  · subst hs
    obtain ⟨hbefore, hpkt, -⟩ := hfit.split
    obtain ⟨rfl, -⟩ := he (.ingest pkt) (by simp)
    have hacc := ReceiverStep.accounted_run pre (fun e h => he e (List.mem_append_left _ h)) (hfresh _ _) hbefore
    obtain ⟨o, hf, -⟩ := hacc.found
    -- stored, the chunk would have to be below the count
    have hturned : Reassembler.storedUnder crc (ReceiverStep.run crc finals (Disk.fresh finals sameFs) pre) pkt = none := by
      cases hm : Reassembler.storedUnder crc (ReceiverStep.run crc finals (Disk.fresh finals sameFs) pre) pkt with
      | none => rfl
      | some m =>
        have hlt := (hpkt ht m hm).inRange
        rw [(Reassembler.storedUnder_cases hf hm).1] at hlt
        exact absurd hlt (Nat.not_lt.2 hrange)
    rw [Reassembler.ingest_chunk ht, Reassembler.ingestChunk_turned hf hturned]

/-- The second of two chunks comes last, after a second copy of the first, and is shorter. -/
theorem published_as_announced_two_chunks :
    let es : List ReceiverStep :=
      [.ingest ⟨.manifest, .empty, 1, 0, 2, [0x61]⟩, .ingest ⟨.data, .empty, 1, 0, 2, [1, 2]⟩,
        .ingest ⟨.retransmit, .empty, 1, 0, 2, [1, 2]⟩, .ingest ⟨.data, PacketFlags.empty.last, 1, 1, 2, [3]⟩]
    let d := ReceiverStep.run crc32 [] (Disk.fresh [] true) es
    (∃ d', (Reassembler.finalize crc32 [] 1).exec d = (.ok [['a']], d') ∧ d'.node [['a']] = some (.file [1, 2, 3])) ∧
    ∃ (m : Manifest) (b : Bytes), d.sidecar crc32 1 = some m ∧ b.length = m.fileSizeHint.toNat ∧
      Announced crc32 [] (Disk.fresh [] true) es b.length ∧
      ∀ k v, b[k]? = some v → Wrote crc32 [] (Disk.fresh [] true) es k v := by
  intro es d
  have hdecoded : ∀ p ∈ ([⟨.manifest, .empty, 1, 0, 2, [0x61]⟩, ⟨.data, .empty, 1, 0, 2, [1, 2]⟩,
      ⟨.retransmit, .empty, 1, 0, 2, [1, 2]⟩, ⟨.data, PacketFlags.empty.last, 1, 1, 2, [3]⟩] : List Packet),
      (ReceiverStep.ingest p).Of crc32 1 := by
    intro p hp
    have hlen : p.fileId = 1 ∧ p.payload.length < 2 ^ 32 ∧ (p.encode crc32).length ≤ MAX_CHUNK_SIZE := by
      simp only [List.mem_cons, List.not_mem_nil, or_false] at hp
      rcases hp with rfl | rfl | rfl | rfl <;> simp [length_encode, MAX_CHUNK_SIZE, HEADER_LEN]
    refine ⟨hlen.1, p.encode crc32, ?_⟩
    rw [List.take_of_length_le hlen.2.2]
    exact decode_encode crc32 p hlen.2.1
  have he : ∀ e ∈ es, e.Of crc32 1 := by
    intro e h
    simp only [es, List.mem_cons, List.not_mem_nil, or_false] at h
    rcases h with rfl | rfl | rfl | rfl <;> exact hdecoded _ (by simp)
  obtain ⟨hpub, -⟩ := published_as_announced crc32 [] true 1 es he (by decide +kernel)
  have hfinal : ((Reassembler.finalize crc32 [] 1).exec d).1 = .ok [['a']] := by decide +kernel
  have hnode : ((Reassembler.finalize crc32 [] 1).exec d).2.node [['a']] = some (.file [1, 2, 3]) := by decide +kernel
  cases hexec : (Reassembler.finalize crc32 [] 1).exec d with
  | mk r d' =>
    rw [hexec] at hfinal hnode
    obtain rfl : r = .ok [['a']] := hfinal
    obtain ⟨m, b, hm, -, hlen, hann, hwrote⟩ := hpub _ _ hexec
    exact ⟨⟨d', rfl, hnode⟩, m, b, hm, hlen, hann, hwrote⟩

/-- A chunk whose id is the count, after the only chunk: it is accepted, grows the file past the size announced, and is
published with it. -/
theorem published_past_announced :
    let es : List ReceiverStep :=
      [.ingest ⟨.data, PacketFlags.empty.last, 1, 0, 1, [1, 2]⟩, .ingest ⟨.data, .empty, 1, 1, 1, [7, 7]⟩,
        .ingest ⟨.manifest, .empty, 1, 0, 1, [0x61]⟩]
    let before := ReceiverStep.run crc32 [] (Disk.fresh [] true) (es.take 1)
    let after := ReceiverStep.run crc32 [] (Disk.fresh [] true) (es.take 2)
    let d := ReceiverStep.run crc32 [] (Disk.fresh [] true) es
    before.get (.incoming 1) = some [1, 2] ∧ after.get (.incoming 1) = some [1, 2, 7, 7] ∧
    before.get (.manifest 1) ≠ after.get (.manifest 1) ∧
    ((Reassembler.finalize crc32 [] 1).exec d).1 = .ok [['a']] ∧
    ((Reassembler.finalize crc32 [] 1).exec d).2.node [['a']] = some (.file [1, 2, 7, 7]) ∧
    (d.sidecar crc32 1).map (·.fileSizeHint) = some 2 := by
  decide +kernel

end Parachuter
