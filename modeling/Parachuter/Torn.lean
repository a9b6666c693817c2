import Parachuter.Assembly
/-!
# Torn — ingesting under failures

An ingest writes the data before it marks the chunk, and every sidecar is put in place by a rename.  `Consistent` is what
holds of an assembly at every cut point: the sidecar on disk can be read, and whatever it marks is in the data file.  It
is weaker than what a whole ingest leaves, since a sidecar may know the payload size and mark nothing, and the data file
may be longer than what is marked.  `wp_ingest` carries it through an ingest struck anywhere, also through the second
writing of a chunk that is marked: a part of the same bytes is written over them.
-/
namespace Parachuter

open Blob (Bytes Holds)
open Calls (Res Strike)

/-- Any call may fail or kill the process, after any part of its effect. -/
def anyStrike (_ : FsCall) (_ : Strike) (_ : Disk) : Prop := True

namespace Source

/-- The data file has the chunks marked, and is no longer than the file. -/
structure Stores (S : Source) (marked : Nat → Prop) (data : Option Bytes) : Prop where
  below  : ∀ i, marked i → i < S.count
  holds  : ∀ i, marked i → ∃ b, data = some b ∧ Holds b (i * S.payloadSize) (S.piece i)
  length : ∀ b, data = some b → b.length ≤ S.bytes.length

/-- What a sidecar says of the file, however far the ingests before it came. -/
structure Partly (S : Source) (m : Manifest) (data : Option Bytes) : Prop extends
    S.Stores (fun i => m.has i = true) data where
  numChunks : m.numChunks = S.chunker.numChunks
  bitmap    : m.bitmap.length = Manifest.bitmapLen m.numChunks
  name      : m.name = [] ∨ m.name = S.name
  size      : m.chunkPayloadSize.toNat = S.stride ∨ (m.chunkPayloadSize = 0 ∧ ∀ i, m.has i = false)

/-- **What holds of the assembly at every moment.** -/
def Consistent (S : Source) (crc : Bytes → UInt32) (d : Disk) : Prop :=
  (d.get (.manifest S.fileId) = none ∧ d.get (.incoming S.fileId) = none) ∨
    ∃ m : Manifest, d.get (.manifest S.fileId) = some (m.bytes crc) ∧ S.Partly m (d.get (.incoming S.fileId))

namespace Stores

variable {S : Source} {marked marked' : Nat → Prop} {data : Option Bytes} {b : Bytes}

theorem weaken (h : S.Stores marked data) (hm : ∀ i, marked' i → marked i) : S.Stores marked' data :=
  ⟨fun i hi => h.below i (hm i hi), fun i hi => h.holds i (hm i hi), h.length⟩

theorem opened (h : S.Stores marked none) : S.Stores marked (some []) := by
  refine ⟨h.below, fun i hi => ?_, fun b hb => ?_⟩
  · obtain ⟨b, hb, -⟩ := h.holds i hi
    cases hb
  · cases hb
    exact Nat.zero_le _

theorem grow (h : S.Stores marked (some b)) {n : Nat} (hb : b.length ≤ n) (hn : n ≤ S.bytes.length) :
    S.Stores marked (some (Blob.setLen b n)) := by
  refine ⟨h.below, fun i hi => ⟨_, rfl, ?_⟩, fun c hc => ?_⟩
  · obtain ⟨c, hc, hh⟩ := h.holds i hi
    cases hc
    by_cases hnil : S.piece i = []
    · rw [hnil]
      intro j hj
      cases hj
    · exact hh.setLen (Nat.le_trans (hh.le_length hnil) hb)
  · cases hc
    rw [Blob.length_setLen]
    exact hn

/-- **A part of a chunk written at its place** spoils nothing: other chunks lie elsewhere, and the chunk itself, if it is
there, has these bytes already. -/
theorem write (h : S.Stores marked (some b)) {i : Nat} (hb : i * S.payloadSize + (S.piece i).length ≤ b.length) (n : Nat) :
    S.Stores marked (some (Blob.writeAt b (i * S.payloadSize) ((S.piece i).take n))) := by
  have hlen : ((S.piece i).take n).length ≤ (S.piece i).length := List.length_take_le' n _
  refine ⟨h.below, fun j hj => ⟨_, rfl, ?_⟩, fun c hc => ?_⟩
  · obtain ⟨c, hc, hh⟩ := h.holds j hj
    cases hc
    by_cases hji : j = i
    · subst hji
      have hpart : Holds b (j * S.payloadSize) ((S.piece j).take n) := by
        intro k hk
        have hk' : k < n := Nat.lt_of_lt_of_le hk (List.length_take_le n _)
        rw [hh k (Nat.lt_of_lt_of_le hk hlen), List.getElem?_take_of_lt hk']
      rw [Blob.writeAt_of_holds hpart]
      exact hh
    · refine hh.writeAt_disjoint (by omega) ?_
      rcases @Core.disjoint S i j hji with hd | hd
      · exact .inl hd
      · exact .inr (by omega)
  · cases hc
    rw [Blob.length_writeAt _ _ _ (by omega)]
    exact h.length b rfl

/-- **The whole chunk written** is there. -/
theorem written (h : S.Stores marked (some b)) {i : Nat} (hi : i < S.count)
    (hb : i * S.payloadSize + (S.piece i).length ≤ b.length) :
    S.Stores (fun j => marked j ∨ j = i) (some (Blob.writeAt b (i * S.payloadSize) (S.piece i))) := by
  have hw := h.write hb (S.piece i).length
  rw [List.take_length] at hw
  refine ⟨fun j hj => ?_, fun j hj => ?_, hw.length⟩
  · rcases hj with hj | rfl
    · exact h.below j hj
    · exact hi
  · rcases hj with hj | rfl
    · exact hw.holds j hj
    · exact ⟨_, rfl, Blob.holds_writeAt _ _ _⟩

end Stores

/-! ## Writing the data -/

/-- A postcondition of writing chunk `i` into the data file of `d`: struck, what was there stays; done, the chunk is there
too. -/
structure Writes (S : Source) (marked : Nat → Prop) (i : Nat) (d : Disk) (m : Manifest)
    (Q : Res Error Manifest → Disk → Prop) : Prop where
  cut : ∀ r d', (∀ u, r ≠ .ok u) → d'.get (.manifest S.fileId) = d.get (.manifest S.fileId) →
    S.Stores marked (d'.get (.incoming S.fileId)) → Q r d'
  new : ∀ d', d'.get (.manifest S.fileId) = d.get (.manifest S.fileId) →
    S.Stores (fun j => marked j ∨ j = i) (d'.get (.incoming S.fileId)) → Q (.ok m) d'

namespace Writes

variable {S : Source} {d : Disk} {m m' : Manifest} {i : Nat} {pkt : Packet} {marked : Nat → Prop} {b : Bytes}
  {Q : Res Error Manifest → Disk → Prop}

theorem cut_put (h : S.Writes marked i d m' Q) {r : Res Error Manifest} (hr : ∀ u, r ≠ .ok u)
    (hb : S.Stores marked (some b)) : Q r (d.put (.incoming S.fileId) b) :=
  h.cut r _ hr (Disk.get_put_ne _ _ (by simp)) (by rw [Disk.get_put_self]; exact hb)

theorem new_put (h : S.Writes marked i d m' Q) (hb : S.Stores (fun j => marked j ∨ j = i) (some b)) :
    Q (.ok m') (d.put (.incoming S.fileId) b) :=
  h.new _ (Disk.get_put_ne _ _ (by simp)) (by rw [Disk.get_put_self]; exact hb)

theorem wp_lockSize (h : S.Writes marked i d m' Q) (hp : S.IsChunk i pkt)
    (hm : m' = if pkt.flags.isLast then
      { m with fileSizeHint := UInt64.ofNat (i * S.payloadSize + (S.piece i).length) } else m)
    (hb : S.Stores (fun j => marked j ∨ j = i) (some b)) :
    (Reassembler.lockSize pkt (i * S.payloadSize + (S.piece i).length) m).wp anyStrike Q
      (d.put (.incoming S.fileId) b) := by
  unfold Reassembler.lockSize
  split
  · rename_i hlast
    rw [if_pos hlast] at hm
    rw [hp.isLast, decide_eq_true_iff] at hlast
    have hreal : i * S.payloadSize + (S.piece i).length = S.bytes.length := by
      rw [hlast]
      exact S.end_of_last
    have hgrow := hb.grow (by rw [hreal]; exact hb.length b rfl) (Nat.le_of_eq hreal)
    have hold : S.Stores marked (some b) := hb.weaken (fun _ => .inl)
    have hold' : S.Stores marked (some (Blob.setLen b _)) := hgrow.weaken (fun _ => .inl)
    rw [hp.fileId, Calls.wp_bind]
    refine wp_io ?_ (fun n _ => h.cut_put (by simp) hold) (fun n _ => h.cut_put (by simp) hold)
    simp only [FsCall.sem, Disk.get_put_self, Nat.not_lt.2 (end_le_offsetMax hp.lt), if_false, Disk.put_put]
    show Calls.Prog.wp _ _ _ (d.put (.incoming S.fileId) _)
    rw [Calls.wp_bind]
    refine wp_io ?_ (fun n _ => h.cut_put (by simp) hold') (fun n _ => h.cut_put (by simp) hold')
    rw [hm] at h
    exact h.new_put hgrow
  · rename_i hlast
    rw [hm, if_neg hlast] at h
    exact h.new_put hb

theorem wp_write (h : S.Writes marked i d m' Q) (hp : S.IsChunk i pkt)
    (hm : m' = if pkt.flags.isLast then
      { m with fileSizeHint := UInt64.ofNat (i * S.payloadSize + (S.piece i).length) } else m)
    (hb : S.Stores marked (some b)) (hlong : i * S.payloadSize + (S.piece i).length ≤ b.length) :
    (do io (.writeAt (.incoming S.fileId) (i * S.payloadSize) (S.piece i))
        io (.sync (.incoming S.fileId))
        Reassembler.lockSize pkt (i * S.payloadSize + (S.piece i).length) m : Fs Manifest).wp anyStrike Q
      (d.put (.incoming S.fileId) b) := by
  have hmax := end_le_offsetMax hp.lt
  have htorn : ∀ n, FsCall.torn (.writeAt (.incoming S.fileId) (i * S.payloadSize) (S.piece i)) n
      (d.put (.incoming S.fileId) b) =
        d.put (.incoming S.fileId) (Blob.writeAt b (i * S.payloadSize) ((S.piece i).take n)) := by
    intro n
    simp only [FsCall.torn, Disk.get_put_self, Disk.put_put]
    rw [if_neg (by omega)]
  have hw := hb.written hp.lt hlong
  have hold : S.Stores marked (some (Blob.writeAt b _ _)) := hw.weaken (fun _ => .inl)
  rw [Calls.wp_bind]
  refine wp_io ?_ (fun n _ => by rw [htorn]; exact h.cut_put (by simp) (hb.write hlong n))
    (fun n _ => by rw [htorn]; exact h.cut_put (by simp) (hb.write hlong n))
  simp only [FsCall.sem, Disk.get_put_self, Disk.put_put]
  rw [if_neg (by omega)]
  show Calls.Prog.wp _ _ _ (d.put (.incoming S.fileId) _)
  rw [Calls.wp_bind]
  refine wp_io ?_ (fun n _ => h.cut_put (by simp) hold) (fun n _ => h.cut_put (by simp) hold)
  exact h.wp_lockSize hp hm hw

theorem wp_growTo (h : S.Writes marked i d m' Q) (hp : S.IsChunk i pkt)
    (hm : m' = if pkt.flags.isLast then
      { m with fileSizeHint := UInt64.ofNat (i * S.payloadSize + (S.piece i).length) } else m)
    (hb : S.Stores marked (some b)) :
    (do Reassembler.growTo (.incoming S.fileId) (i * S.payloadSize + (S.piece i).length)
        io (.writeAt (.incoming S.fileId) (i * S.payloadSize) (S.piece i))
        io (.sync (.incoming S.fileId))
        Reassembler.lockSize pkt (i * S.payloadSize + (S.piece i).length) m : Fs Manifest).wp anyStrike Q
      (d.put (.incoming S.fileId) b) := by
  rw [Calls.wp_bind]
  unfold Reassembler.growTo
  rw [Calls.wp_bind]
  refine wp_io ?_ (fun n _ => h.cut_put (by simp) hb) (fun n _ => h.cut_put (by simp) hb)
  simp only [FsCall.sem, Disk.get_put_self]
  show Calls.Prog.wp _ (if b.length < _ then _ else _) _ _
  split
  · rename_i hlt
    refine wp_io ?_ (fun n _ => h.cut_put (by simp) hb) (fun n _ => h.cut_put (by simp) hb)
    simp only [FsCall.sem, Disk.get_put_self, Nat.not_lt.2 (end_le_offsetMax hp.lt), if_false, Disk.put_put]
    exact h.wp_write hp hm (hb.grow (Nat.le_of_lt hlt) (S.end_le hp.lt)) (by rw [Blob.length_setLen])
  · rename_i hlt
    exact h.wp_write hp hm hb (Nat.not_lt.1 hlt)

/-- **Writing the data**, struck anywhere. -/
theorem wp_writeData (h : S.Writes marked i d (Reassembler.hinted pkt m) Q)
    (hdata : S.Stores marked (d.get (.incoming S.fileId))) (hs : m.chunkPayloadSize.toNat = S.stride)
    (hp : S.IsChunk i pkt) : (Reassembler.writeData pkt m).wp anyStrike Q d := by
  have hoff : pkt.chunkId.toNat * m.chunkPayloadSize.toNat = i * S.payloadSize := by
    rw [hp.chunkId, hs, S.mul_stride hp.lt]
  have hm : Reassembler.hinted pkt m = if pkt.flags.isLast then
      { m with fileSizeHint := UInt64.ofNat (i * S.payloadSize + (S.piece i).length) } else m := by
    rw [Reassembler.hinted, hoff, hp.payload]
  simp only [Reassembler.writeData]
  rw [hoff, hp.payload, hp.fileId, Calls.wp_bind]
  refine wp_io ?_ (fun n _ => h.cut _ _ (by simp) rfl hdata) (fun n _ => h.cut _ _ (by simp) rfl hdata)
  cases hd : d.get (.incoming S.fileId) with
  | none =>
    rw [hd] at hdata
    simp only [FsCall.sem, hd]
    exact h.wp_growTo hp hm hdata.opened
  | some b =>
    rw [hd] at hdata
    simp only [FsCall.sem, hd]
    have hgrow := h.wp_growTo hp hm hdata
    rw [Disk.put_of_get hd] at hgrow
    exact hgrow

end Writes

/-! ## Ingesting a packet -/

namespace Partly

variable {S : Source} {crc : Bytes → UInt32} {d : Disk} {m : Manifest} {data : Option Bytes} {i : Nat} {pkt : Packet}

theorem count (h : S.Partly m data) : m.numChunks.toNat = S.count := congrArg UInt32.toNat h.numChunks

theorem wf (h : S.Partly m data) : m.Wf := by
  refine ⟨h.bitmap, ?_⟩
  rcases h.name with hn | hn
  · rw [hn]
    decide
  · rw [hn]
    exact S.nameFits

theorem parse (h : S.Partly m data) (crc : Bytes → UInt32) : Manifest.parse crc (m.bytes crc) = .ok m :=
  Manifest.parse_bytes crc m h.wf

/-- The sidecar stands over whatever stores what it marks. -/
theorem onto {data' : Option Bytes} (h : S.Partly m data) (hd : S.Stores (fun i => m.has i = true) data') :
    S.Partly m data' := ⟨hd, h.numChunks, h.bitmap, h.name, h.size⟩

theorem fresh (S : Source) {cps : UInt32} {name : List Char} (hname : name = [] ∨ name = S.name)
    (hsize : cps.toNat = S.stride ∨ cps = 0) :
    S.Partly ⟨cps, S.chunker.numChunks, 0, name, List.replicate (Manifest.bitmapLen S.chunker.numChunks) 0⟩ none := by
  have hclear : ∀ i, Manifest.has ⟨cps, S.chunker.numChunks, 0, name,
      List.replicate (Manifest.bitmapLen S.chunker.numChunks) 0⟩ i = false := fun i => Manifest.has_replicate _ i
  have hno : ∀ i, ¬ Manifest.has ⟨cps, S.chunker.numChunks, 0, name,
      List.replicate (Manifest.bitmapLen S.chunker.numChunks) 0⟩ i = true := fun i => by rw [hclear]; simp
  exact ⟨⟨fun i hi => absurd hi (hno i), fun i hi => absurd hi (hno i), fun b hb => by cases hb⟩, rfl,
    List.length_replicate .., hname, hsize.imp_right (fun h => ⟨h, hclear⟩)⟩

/-- **Marking a chunk that is in the data file.** -/
theorem mark (h : S.Partly m data) (hs : m.chunkPayloadSize.toNat = S.stride) (hi : i < S.count)
    (hd : S.Stores (fun j => m.has j = true ∨ j = i) data) (hint : UInt64) :
    S.Partly { m with fileSizeHint := hint, bitmap := Bitmap.setBit m.bitmap i } data := by
  have hb : i / 8 < m.bitmap.length := by
    have hc := h.count
    rw [h.bitmap, Manifest.toNat_bitmapLen (by rw [hc]; exact S.count_le), hc]
    omega
  refine ⟨hd.weaken (fun j hj => ?_), h.numChunks, (Bitmap.length_setBit _ _).trans h.bitmap, h.name, .inl hs⟩
  have hj' : Bitmap.getBit (Bitmap.setBit m.bitmap i) j = true := hj
  rw [Bitmap.getBit_setBit hb, Bool.or_eq_true, decide_eq_true_iff] at hj'
  exact hj'.symm

end Partly

section

variable {S : Source} {crc : Bytes → UInt32} {d : Disk} {m : Manifest} {i : Nat} {pkt : Packet}

theorem wp_outcome (hd : S.Consistent crc d) (m : Manifest) :
    (Reassembler.outcome m).wp anyStrike (fun _ => S.Consistent crc) d := by
  unfold Reassembler.outcome
  split
  · exact hd
  · exact hd

/-- **Storing a chunk**, struck anywhere. -/
theorem wp_storeChunk (hm : d.get (.manifest S.fileId) = some (m.bytes crc)) (h : S.Partly m (d.get (.incoming S.fileId)))
    (hs : m.chunkPayloadSize.toNat = S.stride) (hp : S.IsChunk i pkt) :
    (Reassembler.storeChunk crc pkt m).wp anyStrike (fun _ => S.Consistent crc) d := by
  have hset : (Reassembler.hinted pkt m).isSet pkt.chunkId = m.has i := by
    rw [← hp.chunkId]
    unfold Reassembler.hinted
    split
    · rfl
    · rfl
  obtain ⟨hint, hhint⟩ : ∃ x, Reassembler.hinted pkt m = { m with fileSizeHint := x } := by
    unfold Reassembler.hinted
    split
    · exact ⟨_, rfl⟩
    · exact ⟨_, rfl⟩
  rw [Reassembler.storeChunk, Calls.wp_bind]
  refine Writes.wp_writeData ⟨fun r d' hr hman hst => ?_, fun d' hman hst => ?_⟩ h.toStores hs hp
  · exact Calls.thenWp_of_ne_ok hr (fun _ _ => .inr ⟨m, hman.trans hm, h.onto hst⟩)
  · -- the chunk is in the data file, and the sidecar on disk still the old one
    have hc : S.Consistent crc d' := .inr ⟨m, hman.trans hm, h.onto (hst.weaken (fun _ => .inl))⟩
    show (Reassembler.markChunk crc pkt (Reassembler.hinted pkt m)).wp anyStrike _ d'
    unfold Reassembler.markChunk
    rw [hset]
    split
    · exact hc
    · have hnew : (Reassembler.hinted pkt m).set pkt.chunkId =
          { m with fileSizeHint := hint, bitmap := Bitmap.setBit m.bitmap i } := by
        rw [hhint, Manifest.set, hp.chunkId]
      rw [hnew, hp.fileId, Calls.wp_bind]
      refine Manifest.wp_save (fun r d'' hr hman' hdata' => ?_) (fun d'' hman' hdata' => ?_)
      · refine Calls.thenWp_of_ne_ok hr (fun _ _ => .inr ⟨m, hman'.trans (hman.trans hm), ?_⟩)
        rw [hdata']
        exact h.onto (hst.weaken (fun _ => .inl))
      · refine wp_outcome (.inr ⟨_, hman', ?_⟩) _
        rw [hdata']
        exact (h.onto (hst.weaken (fun _ => .inl))).mark hs hp.lt hst hint

theorem wp_save_then {m' : Manifest} {f : Unit → Fs IngestOutcome} (hd : S.Consistent crc d)
    (h' : S.Partly m' (d.get (.incoming S.fileId)))
    (hf : ∀ d', d'.get (.manifest S.fileId) = some (m'.bytes crc) → S.Partly m' (d'.get (.incoming S.fileId)) →
      (f ()).wp anyStrike (fun _ => S.Consistent crc) d') :
    (m'.save crc S.fileId >>= f).wp anyStrike (fun _ => S.Consistent crc) d := by
  rw [Calls.wp_bind]
  refine Manifest.wp_save (fun r d' hr hman hdata => ?_) (fun d' hman hdata => ?_)
  · refine Calls.thenWp_of_ne_ok hr (fun _ _ => ?_)
    unfold Consistent
    rw [hman, hdata]
    exact hd
  · exact hf d' hman (by rw [hdata]; exact h')

theorem wp_create_then {cps : UInt32} {name : List Char} {f : Manifest → Fs IngestOutcome}
    (hnone : d.get (.manifest S.fileId) = none ∧ d.get (.incoming S.fileId) = none)
    (hname : name = [] ∨ name = S.name) (hsize : cps.toNat = S.stride ∨ cps = 0)
    (hf : ∀ d' m', d'.get (.manifest S.fileId) = some (m'.bytes crc) → S.Partly m' (d'.get (.incoming S.fileId)) →
      (f m').wp anyStrike (fun _ => S.Consistent crc) d') :
    (Manifest.create crc S.fileId cps S.chunker.numChunks name >>= f).wp anyStrike (fun _ => S.Consistent crc) d := by
  unfold Manifest.create
  rw [Calls.wp_bind, Calls.wp_bind]
  refine Manifest.wp_save (fun r d' hr hman hdata => ?_) (fun d' hman hdata => ?_)
  · refine Calls.thenWp_of_ne_ok hr (fun r hr => Calls.thenWp_of_ne_ok hr (fun _ _ => .inl ?_))
    rw [hman, hdata]
    exact hnone
  · refine hf d' _ hman ?_
    rw [hdata, hnone.2]
    exact Partly.fresh S hname hsize

/-- **Ingesting a chunk into a sidecar**, struck anywhere. -/
theorem wp_ingestInto (hm : d.get (.manifest S.fileId) = some (m.bytes crc)) (h : S.Partly m (d.get (.incoming S.fileId)))
    (hp : S.IsChunk i pkt) : (Reassembler.ingestInto crc pkt m).wp anyStrike (fun _ => S.Consistent crc) d := by
  have hd : S.Consistent crc d := .inr ⟨m, hm, h⟩
  unfold Reassembler.ingestInto
  split
  · exact hd
  split
  · rename_i hz
    split
    · exact hd
    · -- the payload size is patched from this chunk, and is the stride
      rename_i hl
      have hstride := hp.toNat_payload hl
      rw [hp.fileId]
      refine wp_save_then hd ⟨h.toStores, h.numChunks, h.bitmap, h.name, .inl hstride⟩ (fun d' hman hpart => ?_)
      exact wp_storeChunk hman hpart hstride hp
  · rename_i hz
    exact wp_storeChunk hm h (h.size.resolve_right (fun h0 => hz h0.1)) hp

/-- **Ingesting a chunk**, struck anywhere. -/
theorem wp_ingestChunk (hd : S.Consistent crc d) (hp : S.IsChunk i pkt) :
    (Reassembler.ingestChunk crc pkt).wp anyStrike (fun _ => S.Consistent crc) d := by
  unfold Reassembler.ingestChunk
  rw [Calls.wp_bind, Calls.wp_attempt, hp.fileId]
  rcases hd with ⟨h1, h2⟩ | ⟨m, hm, h⟩
  · have hd : S.Consistent crc d := .inl ⟨h1, h2⟩
    refine Manifest.wp_open_none h1 (fun _ _ => hd) (fun _ _ => hd) ?_
    show Calls.Prog.wp _ (if _ then _ else _) _ d
    split
    · exact hd
    · rename_i hl
      have hstride := hp.toNat_payload hl
      have hnum : pkt.numChunks = S.chunker.numChunks := UInt32.toNat_inj.1 hp.numChunks
      rw [hnum]
      exact wp_create_then ⟨h1, h2⟩ (.inl rfl) (.inl hstride) (fun d' m' hman hpart => wp_ingestInto hman hpart hp)
  · have hd : S.Consistent crc d := .inr ⟨m, hm, h⟩
    refine Manifest.wp_open_some hm (h.parse crc) (fun _ _ => hd) (fun _ _ => hd) ?_
    exact wp_ingestInto hm h hp

/-- **Ingesting a name**, struck anywhere. -/
theorem wp_ingestManifest (hd : S.Consistent crc d) :
    (Reassembler.ingestManifest crc (S.chunker.manifestPacket S.name)).wp anyStrike (fun _ => S.Consistent crc) d := by
  have hname : Utf8.decodeLossy (S.chunker.manifestPacket S.name).payload = S.name := Utf8.decodeLossy_encode _
  have hid : (S.chunker.manifestPacket S.name).fileId = S.fileId := rfl
  -- the rest, once there is a sidecar
  have hinto : ∀ d' m', d'.get (.manifest S.fileId) = some (m'.bytes crc) → S.Partly m' (d'.get (.incoming S.fileId)) →
      (Reassembler.nameInto crc (S.chunker.manifestPacket S.name) S.name m').wp anyStrike (fun _ => S.Consistent crc) d' := by
    intro d' m' hm' h'
    have hd' : S.Consistent crc d' := .inr ⟨m', hm', h'⟩
    unfold Reassembler.nameInto
    split
    · exact hd'
    split
    · refine wp_save_then hd' ⟨h'.toStores, h'.numChunks, h'.bitmap, .inr rfl, h'.size⟩ (fun d'' hman hpart => ?_)
      exact wp_outcome (.inr ⟨_, hman, hpart⟩) _
    · exact wp_outcome hd' _
  simp only [Reassembler.ingestManifest, hname]
  rw [Calls.wp_bind, Calls.wp_attempt, hid]
  rcases hd with ⟨h1, h2⟩ | ⟨m, hm, h⟩
  · have hd : S.Consistent crc d := .inl ⟨h1, h2⟩
    refine Manifest.wp_open_none h1 (fun _ _ => hd) (fun _ _ => hd) ?_
    exact wp_create_then ⟨h1, h2⟩ (.inr rfl) (.inr rfl) hinto
  · have hd : S.Consistent crc d := .inr ⟨m, hm, h⟩
    refine Manifest.wp_open_some hm (h.parse crc) (fun _ _ => hd) (fun _ _ => hd) ?_
    exact hinto d m hm h

/-- **Ingesting a packet of the file**, struck anywhere. -/
theorem wp_ingest (hd : S.Consistent crc d) (hp : S.Sends pkt) :
    (Reassembler.ingest crc pkt).wp anyStrike (fun _ => S.Consistent crc) d := by
  rcases hp.cases with rfl | ⟨i, hi⟩
  · exact wp_ingestManifest hd
  · have hc := wp_ingestChunk hd hi
    unfold Reassembler.ingest
    rcases hi.isChunk with ht | ht <;> rw [ht] <;> exact hc

end

end Source

/-! ## Finalising, without failures -/

/-- What a finalise leaves in holding: everything, or everything but the two files of the assembly. -/
def Reassembler.Leaves (id : FileId) (d d' : Disk) : Prop :=
  (∀ f, d'.get f = d.get f) ∨
    (d'.get (.manifest id) = none ∧ d'.get (.incoming id) = none ∧ ∀ f : HoldingFile, f.id ≠ id → d'.get f = d.get f)

namespace Reassembler

variable {d : Disk} {id : FileId}

/-- **The move**: the data is at its place and has left holding, or nothing has changed. -/
theorem moveInto_cases (id : FileId) (dest : Path) (d : Disk) :
    (∃ b, d.get (.incoming id) = some b ∧ (moveInto id dest).exec d = (.ok (), (d.putFile dest b).del (.incoming id))) ∨
    ∃ e, (moveInto id dest).exec d = (.err e, d) := by
  -- when the rename fails, the copy and the removal decide
  have hslow : ∀ e, (io (.rename (.incoming id) dest)).exec d = (.err e, d) → (moveInto id dest).exec d =
      (do io (.copy (.incoming id) dest); io (.remove (.incoming id)) : Fs Unit).exec d := by
    intro e hren
    unfold moveInto
    rw [Calls.exec_bind, Calls.exec_attempt, hren]
    rfl
  cases hdata : d.get (.incoming id) with
  | none =>
    refine .inr ⟨.io .notFound, (hslow _ (exec_rename_none hdata)).trans ?_⟩
    rw [Calls.exec_bind, exec_copy_none hdata, Calls.andThen_err]
  | some b =>
    by_cases hfast : (d.sameFs && d.mayCreate dest) = true
    · rw [Bool.and_eq_true] at hfast
      refine .inl ⟨b, rfl, ?_⟩
      unfold moveInto
      rw [Calls.exec_bind, Calls.exec_attempt, exec_rename hdata hfast.1 hfast.2]
      rfl
    · have hren := exec_rename_refused hdata hfast
      by_cases hc : d.mayCreate dest = true
      · refine .inl ⟨b, rfl, (hslow _ hren).trans ?_⟩
        rw [Calls.exec_bind, exec_copy hdata hc, Calls.andThen_ok,
          exec_remove (b := b) (by rw [Disk.get_putFile]; exact hdata)]
      · refine .inr ⟨.io .other, (hslow _ hren).trans ?_⟩
        rw [Calls.exec_bind, exec_copy_refused hdata hc, Calls.andThen_err]

theorem createParent_holding (dest : Path) (d : Disk) :
    ∃ r d', (createParent dest).exec d = (r, d') ∧ ∀ f, d'.get f = d.get f := by
  unfold createParent
  split
  · exact ⟨_, _, rfl, fun _ => rfl⟩
  · by_cases hp : dest.dropLast.inits.any d.isFile = true
    · exact ⟨_, _, exec_createDirAll_refused hp, fun _ => rfl⟩
    · exact ⟨_, _, exec_createDirAll (Bool.eq_false_iff.2 hp), fun _ => rfl⟩

theorem publish_holding (hm : d.get (.manifest id) ≠ none) (dest : Path) :
    Leaves id d ((publish id dest).exec d).2 := by
  obtain ⟨buf, hbuf⟩ := Option.ne_none_iff_exists'.1 hm
  obtain ⟨r, d1, hparent, hget⟩ := createParent_holding dest d
  unfold publish
  rw [Calls.exec_bind, hparent]
  cases r with
  | err e => exact .inl hget
  | panic => exact .inl hget
  | crash => exact .inl hget
  | ok u =>
    rw [Calls.andThen_ok, Calls.exec_bind]
    rcases moveInto_cases id dest d1 with ⟨b, -, hmove⟩ | ⟨e, hmove⟩
    · have hside : ((d1.putFile dest b).del (.incoming id)).get (.manifest id) = some buf := by
        rw [Disk.get_del_ne _ (by simp), Disk.get_putFile, hget, hbuf]
      rw [hmove, Calls.andThen_ok, Calls.exec_bind, exec_remove hside]
      refine .inr ⟨Disk.get_del_self _ _, ?_, fun f hf => ?_⟩
      · show ((((d1.putFile dest b).del (.incoming id)).del (.manifest id))).get (.incoming id) = none
        rw [Disk.get_del_ne _ (by simp), Disk.get_del_self]
      · show ((((d1.putFile dest b).del (.incoming id)).del (.manifest id))).get f = d.get f
        rw [Disk.get_del_ne _ (by rintro rfl; exact hf rfl), Disk.get_del_ne _ (by rintro rfl; exact hf rfl),
          Disk.get_putFile, hget]
    · rw [hmove]
      exact .inl hget

/-- **A finalise takes both files of an assembly out of holding, or none.** -/
theorem finalize_holding (crc : Bytes → UInt32) (finals : Path) (id : FileId) (d : Disk) :
    Leaves id d ((finalize crc finals id).exec d).2 := by
  have hsame : Leaves id d d := .inl (fun _ => rfl)
  unfold finalize
  rw [Calls.exec_bind]
  cases hm : d.get (.manifest id) with
  | none =>
    rw [Manifest.exec_open_none hm]
    exact hsame
  | some buf =>
    cases hp : Manifest.parse crc buf with
    | error e =>
      have hopen : (Manifest.open crc id).exec d = (.err e, d) := by
        have hs : FsCall.sem (.read (.manifest id)) d = (.ok buf, d) := by simp only [FsCall.sem, hm]
        show (Manifest.openCont crc id (FsCall.sem (.read (.manifest id)) d).1).exec (FsCall.sem (.read (.manifest id)) d).2 = _
        rw [hs]
        simp only [Manifest.openCont, hp, Calls.exec_err]
      rw [hopen]
      exact hsame
    | ok m =>
      rw [Manifest.exec_open_some hm hp, Calls.andThen_ok]
      split
      · exact hsame
      · exact hsame
      · split
        · exact hsame
        · exact publish_holding (by rw [hm]; exact Option.some_ne_none buf) _

end Reassembler

theorem Source.Consistent.finalize {S : Source} {crc : Bytes → UInt32} {d : Disk} (h : S.Consistent crc d) (finals : Path)
    (id : FileId) : S.Consistent crc ((Reassembler.finalize crc finals id).exec d).2 := by
  have hsame : ∀ {d' : Disk}, d'.get (.manifest S.fileId) = d.get (.manifest S.fileId) →
      d'.get (.incoming S.fileId) = d.get (.incoming S.fileId) → S.Consistent crc d' := by
    intro d' hman hdata
    unfold Consistent
    rw [hman, hdata]
    exact h
  rcases Reassembler.finalize_holding crc finals id d with hall | ⟨hman, hdata, hother⟩
  · exact hsame (hall _) (hall _)
  · by_cases hid : id = S.fileId
    · subst hid
      exact .inl ⟨hman, hdata⟩
    · exact hsame (hother _ (Ne.symm hid)) (hother _ (Ne.symm hid))

/-! ## Runs -/

/-- What happens to an assembly: a packet arrives and its ingest is struck as scheduled, or the assembly is finalised.
After a crash the process starts again on the disk as it is. -/
inductive IngestEvent
  | ingest (pkt : Packet) (strikes : List (Option Strike))
  | finalize (id : FileId)

namespace IngestEvent

def step (crc : Bytes → UInt32) (finals : Path) (d : Disk) : IngestEvent → Disk
  | .ingest pkt strikes => ((Reassembler.ingest crc pkt).run strikes d).2
  | .finalize id        => ((Reassembler.finalize crc finals id).exec d).2

def run (crc : Bytes → UInt32) (finals : Path) (d : Disk) (es : List IngestEvent) : Disk := es.foldl (step crc finals) d

/-- The packets are those of the file. -/
def Honest (S : Source) : IngestEvent → Prop
  | .ingest pkt _ => S.Sends pkt
  | .finalize _   => True

variable {S : Source} {crc : Bytes → UInt32} {finals : Path}

theorem consistent_step {d : Disk} (h : S.Consistent crc d) {e : IngestEvent} (he : e.Honest S) :
    S.Consistent crc (step crc finals d e) := by
  cases e with
  | ingest pkt strikes =>
    exact Calls.wp_sound _ (Source.wp_ingest h he) strikes (Calls.meets_of_all (fun _ _ _ => trivial) _ _ _)
  | finalize id => exact h.finalize finals id

theorem consistent_run : ∀ (es : List IngestEvent) {d : Disk}, S.Consistent crc d → (∀ e ∈ es, e.Honest S) →
    S.Consistent crc (run crc finals d es)
  | [], _, h, _       => h
  | e :: es, _, h, he =>
    consistent_run es (consistent_step h (he e List.mem_cons_self)) (fun e' h' => he e' (List.mem_cons_of_mem _ h'))

end IngestEvent

/-- **Ingesting is crash consistent.**  However the ingests of a file's packets were struck, the sidecar on disk, if there
is one, reopens, and every chunk it marks is in the data file at the offset it says. -/
theorem ingest_crash_consistent (crc : Bytes → UInt32) (finals : Path) (S : Source) (sameFs : Bool) (es : List IngestEvent)
    (he : ∀ e ∈ es, e.Honest S) :
    let d := IngestEvent.run crc finals (Disk.fresh finals sameFs) es
    d.get (.manifest S.fileId) ≠ none → ∃ m, (Manifest.open crc S.fileId).exec d = (.ok m, d) ∧
      ∀ i, m.has i = true → i < S.count ∧ ∃ data, d.get (.incoming S.fileId) = some data ∧
        Holds data (i * m.chunkPayloadSize.toNat) (S.piece i) := by
  intro d hsome
  rcases IngestEvent.consistent_run es (.inl ⟨rfl, rfl⟩ : S.Consistent crc (Disk.fresh finals sameFs)) he with
    ⟨hnone, -⟩ | ⟨m, hm, h⟩
  · exact absurd hnone hsome
  · refine ⟨m, Manifest.exec_open_some hm (h.parse crc), fun i hi => ?_⟩
    have hlt := h.below i hi
    have hsize : m.chunkPayloadSize.toNat = S.stride :=
      h.size.resolve_right (fun h0 => Bool.false_ne_true ((h0.2 i).symm.trans hi))
    obtain ⟨data, hdata, hh⟩ := h.holds i hi
    refine ⟨hlt, data, hdata, ?_⟩
    rw [hsize, S.mul_stride hlt]
    exact hh

/-- Chunk 0 arrives, its second writing is cut after four bytes, and the last chunk's ingest fails before it is marked. -/
theorem ingest_crash_consistent_rewrite :
    let es := (Source.sampleA.dataPackets [0]).map (IngestEvent.ingest · []) ++
      (Source.sampleA.dataPackets [0]).map (IngestEvent.ingest · [none, none, none, some (.crash 4)]) ++
      (Source.sampleA.dataPackets [1]).map
        (IngestEvent.ingest · [none, none, none, none, none, none, none, none, some (.fail 7)])
    let d := IngestEvent.run crc32 [] (Disk.fresh [] true) es
    (d.get (.incoming 1)).map List.length = some 40 ∧ ∃ m, (Manifest.open crc32 1).exec d = (.ok m, d) ∧
      m.has 0 = true ∧ m.has 1 = false ∧ ∃ data, d.get (.incoming 1) = some data ∧
        Holds data (0 * m.chunkPayloadSize.toNat) (Source.sampleA.piece 0) := by
  intro es d
  have he : ∀ e ∈ es, e.Honest Source.sampleA := by
    intro e he
    simp only [es, List.mem_append, List.mem_map] at he
    rcases he with (⟨p, hp, rfl⟩ | ⟨p, hp, rfl⟩) | ⟨p, hp, rfl⟩
    · exact Source.sends_dataPackets hp
    · exact Source.sends_dataPackets hp
    · exact Source.sends_dataPackets hp
  obtain ⟨m, hopen, hmarks⟩ := ingest_crash_consistent crc32 [] Source.sampleA true es he (by decide +kernel)
  have hbits : ((Manifest.open crc32 1).exec d).1.toOption.map (fun m => (m.has 0, m.has 1)) = some (true, false) := by
    decide +kernel
  have hopen' : (Manifest.open crc32 1).exec d = (.ok m, d) := hopen
  rw [hopen'] at hbits
  simp only [Calls.Res.toOption, Option.map_some, Option.some.injEq, Prod.mk.injEq] at hbits
  exact ⟨by decide +kernel, m, hopen', hbits.1, hbits.2, (hmarks 0 hbits.1).2⟩

end Parachuter
