import Parachuter.Crash
/-!
# Tidy — nothing whole stays in holding

What the ground keeps for itself whatever is sent to it: files of one id may be cut at any chunk sizes, mixed at will,
and their contents may change.  `Tidy` says that every sidecar is readable and is named, if at all, as its file is, and
that the final directory has files only at the places of the files listed.  A packet that makes a sidecar whole is
answered `complete` (`Tidy.ingest`), and the finalise that follows takes the assembly out of holding, also when the rename
fails and the copy stands in for it (`Tidy.wp_finalize`); so along every such run no sidecar in holding is whole
(`GroundEvent.tidy_run`).
-/
namespace Parachuter

open Blob (Bytes)
open Calls (Res Strike)

/-- The sidecar has the name and every chunk. -/
def Manifest.Whole (m : Manifest) : Prop := m.name ≠ [] ∧ ∀ i, i < m.numChunks.toNat → m.has i = true

/-- No sidecar in holding is whole. -/
def NoneWhole (crc : Bytes → UInt32) (d : Disk) : Prop := ∀ id m, d.sidecar crc id = some m → ¬ m.Whole

/-- What a sidecar is like, whatever chunk size its packets were cut at. -/
structure Source.Held (S : Source) (m : Manifest) (data : Option Bytes) : Prop where
  pos     : 0 < m.numChunks.toNat
  count   : m.numChunks.toNat ≤ 2 ^ 32 - 8
  bitmap  : m.bitmap.length = Manifest.bitmapLen m.numChunks
  name    : m.name = [] ∨ m.name = S.name
  size    : m.chunkPayloadSize.toNat < 2 ^ 30
  present : ∀ i, m.has i = true → data ≠ none

/-- The invariant. -/
structure Tidy (crc : Bytes → UInt32) (finals : Path) (Ss : List Source) (d : Disk) : Prop extends
    Tree (fun _ _ => True) finals Ss d where
  held : ∀ id, (d.get (.manifest id) = none ∧ d.get (.incoming id) = none) ∨
    ∃ S ∈ Ss, S.fileId = id ∧ ∃ m : Manifest, d.get (.manifest id) = some (m.bytes crc) ∧ S.Held m (d.get (.incoming id))

/-- What an ingest leaves of the assembly of one id: a sidecar, and `complete` exactly when it is whole. -/
structure Source.Kept (S : Source) (crc : Bytes → UInt32) (d : Disk) (o : IngestOutcome) (d' : Disk) (m : Manifest) :
    Prop where
  frame    : Frame S.fileId d d'
  sidecar  : d'.get (.manifest S.fileId) = some (m.bytes crc)
  held     : S.Held m (d'.get (.incoming S.fileId))
  complete : o = .complete ↔ m.Whole

/-! ## Ingesting a packet -/

namespace Source.Held

variable {S : Source} {crc : Bytes → UInt32} {d : Disk} {m : Manifest} {data : Option Bytes}

theorem wf (h : S.Held m data) : m.Wf := by
  refine ⟨h.bitmap, ?_⟩
  rcases h.name with hn | hn
  · rw [hn]
    decide
  · rw [hn]
    exact S.nameFits

theorem parse (h : S.Held m data) (crc : Bytes → UInt32) : Manifest.parse crc (m.bytes crc) = .ok m :=
  Manifest.parse_bytes crc m h.wf

theorem isComplete (h : S.Held m data) :
    m.isComplete = some (decide (∀ i, i < m.numChunks.toNat → m.has i = true)) :=
  Manifest.isComplete_eq m h.bitmap h.count

theorem exec_outcome (h : S.Held m data) (d : Disk) : ∃ o, (Reassembler.outcome m).exec d = (.ok o, d) ∧
    (o = .complete ↔ m.Whole) := by
  refine ⟨_, Reassembler.exec_outcome d h.isComplete, ?_⟩
  rw [ite_eq_left_iff, Manifest.Whole]
  have hname : (!m.name.isEmpty) = true ↔ m.name ≠ [] := by simp
  constructor
  · intro hc
    by_contra hn
    have hfalse : ¬ (decide (∀ i, i < m.numChunks.toNat → m.has i = true) && !m.name.isEmpty) = true := by
      rw [Bool.and_eq_true, decide_eq_true_iff, hname]
      exact fun hb => hn ⟨hb.2, hb.1⟩
    cases hc hfalse
  · intro hw hf
    rw [Bool.and_eq_true, decide_eq_true_iff, hname] at hf
    exact absurd ⟨hw.2, hw.1⟩ hf

theorem fresh (S : Source) {cps n : UInt32} {name : List Char} (hsize : cps.toNat < 2 ^ 30) (hpos : 0 < n.toNat)
    (hcount : n.toNat ≤ 2 ^ 32 - 8) (hname : name = [] ∨ name = S.name) :
    S.Held ⟨cps, n, 0, name, List.replicate (Manifest.bitmapLen n) 0⟩ none ∧
      ¬ Manifest.Whole ⟨cps, n, 0, name, List.replicate (Manifest.bitmapLen n) 0⟩ := by
  have hclear : ∀ i, Manifest.has ⟨cps, n, 0, name, List.replicate (Manifest.bitmapLen n) 0⟩ i = false :=
    fun i => Manifest.has_replicate _ i
  refine ⟨⟨hpos, hcount, List.length_replicate .., hname, hsize, fun i hi => ?_⟩, fun hw => ?_⟩
  · rw [hclear i] at hi
    cases hi
  · have h0 := hw.2 0 hpos
    rw [hclear 0] at h0
    cases h0

/-- **Storing a chunk.** -/
theorem storeChunk (hm : d.get (.manifest S.fileId) = some (m.bytes crc)) (h : S.Held m (d.get (.incoming S.fileId)))
    (hn : ¬ m.Whole) {i : Nat} {pkt : Packet} (hp : S.IsChunk i pkt) :
    ∃ o d' m', (Reassembler.storeChunk crc pkt m).exec d = (.ok o, d') ∧ S.Kept crc d o d' m' := by
  have hoff : pkt.chunkId.toNat * m.chunkPayloadSize.toNat + pkt.payload.length ≤ FsCall.OFFSET_MAX := by
    have h1 := Nat.mul_le_mul (Nat.le_of_lt pkt.chunkId.toNat_lt) (Nat.le_of_lt h.size)
    have h2 := S.length_piece i
    have h3 := S.payloadSize_le
    rw [hp.payload]
    unfold FsCall.OFFSET_MAX
    omega
  rw [Reassembler.storeChunk, Calls.exec_bind, Reassembler.exec_writeData hoff, Calls.andThen_ok, Reassembler.markChunk,
    hp.fileId]
  split
  · -- a duplicate: the sidecar stays as it is on disk
    refine ⟨_, _, m, rfl, Frame.put_incoming _, ?_, ?_, ?_⟩
    · rw [Disk.get_put_ne _ _ (by simp)]
      exact hm
    · rw [Disk.get_put_self]
      exact ⟨h.pos, h.count, h.bitmap, h.name, h.size, fun _ _ => Option.some_ne_none _⟩
    · exact ⟨(fun ho => by cases ho), fun hw => absurd hw hn⟩
  · obtain ⟨hint, hhint⟩ : ∃ x, Reassembler.hinted pkt m = { m with fileSizeHint := x } := by
      unfold Reassembler.hinted
      split
      · exact ⟨_, rfl⟩
      · exact ⟨_, rfl⟩
    rw [hhint, Calls.exec_bind, Manifest.exec_save, Calls.andThen_ok]
    have hheld : S.Held (Manifest.set { m with fileSizeHint := hint } pkt.chunkId)
        (some (Reassembler.placed pkt m d)) :=
      ⟨h.pos, h.count, (Bitmap.length_setBit _ _).trans h.bitmap, h.name, h.size, fun _ _ => Option.some_ne_none _⟩
    obtain ⟨o, ho, hiff⟩ := hheld.exec_outcome (Manifest.saved crc S.fileId
      (Manifest.set { m with fileSizeHint := hint } pkt.chunkId) (d.put (.incoming S.fileId) (Reassembler.placed pkt m d)))
    refine ⟨o, _, _, ho, (Frame.put_incoming _).trans (Frame.saved crc _), Manifest.get_saved_self .., ?_, hiff⟩
    rw [Manifest.get_saved_incoming, Disk.get_put_self]
    exact hheld

/-- **Ingesting a chunk into a sidecar.** -/
theorem ingestInto (hm : d.get (.manifest S.fileId) = some (m.bytes crc)) (h : S.Held m (d.get (.incoming S.fileId)))
    (hn : ¬ m.Whole) {i : Nat} {pkt : Packet} (hp : S.IsChunk i pkt) :
    ∃ o d' m', (Reassembler.ingestInto crc pkt m).exec d = (.ok o, d') ∧ S.Kept crc d o d' m' := by
  have hsame : S.Kept crc d .mismatched d m := ⟨.refl, hm, h, (fun ho => by cases ho), fun hw => absurd hw hn⟩
  unfold Reassembler.ingestInto
  split
  · exact ⟨_, _, m, rfl, hsame⟩
  split
  · split
    · exact ⟨_, _, m, rfl, hsame⟩
    · -- the payload size is patched from this chunk and the sidecar saved before the chunk is stored
      have hlen : (UInt32.ofNat pkt.payload.length).toNat < 2 ^ 30 := by
        have h2 := S.length_piece i
        have h3 := S.payloadSize_le
        rw [hp.payload, UInt32.toNat_ofNat', Nat.mod_eq_of_lt (by omega)]
        omega
      rw [Calls.exec_bind, Manifest.exec_save, Calls.andThen_ok, hp.fileId]
      obtain ⟨o, d', m', heq, hf, hs, hh, hc⟩ := @storeChunk S crc
        (Manifest.saved crc S.fileId { m with chunkPayloadSize := UInt32.ofNat pkt.payload.length } d)
        { m with chunkPayloadSize := UInt32.ofNat pkt.payload.length } (Manifest.get_saved_self ..)
        (by rw [Manifest.get_saved_incoming]; exact ⟨h.pos, h.count, h.bitmap, h.name, hlen, h.present⟩) hn i pkt hp
      exact ⟨o, d', m', heq, (Frame.saved crc _).trans hf, hs, hh, hc⟩
  · exact storeChunk hm h hn hp

/-- **Ingesting a name into a sidecar.** -/
theorem nameInto (hm : d.get (.manifest S.fileId) = some (m.bytes crc)) (h : S.Held m (d.get (.incoming S.fileId)))
    (hn : ¬ m.Whole) {pkt : Packet} (hid : pkt.fileId = S.fileId) :
    ∃ o d' m', (Reassembler.nameInto crc pkt S.name m).exec d = (.ok o, d') ∧ S.Kept crc d o d' m' := by
  unfold Reassembler.nameInto
  split
  · exact ⟨_, _, m, rfl, .refl, hm, h, (fun ho => by cases ho), fun hw => absurd hw hn⟩
  split
  · rw [Calls.exec_bind, Manifest.exec_save, Calls.andThen_ok, hid]
    have hheld : S.Held { m with name := S.name } (d.get (.incoming S.fileId)) :=
      ⟨h.pos, h.count, h.bitmap, .inr rfl, h.size, h.present⟩
    obtain ⟨o, ho, hiff⟩ := hheld.exec_outcome (Manifest.saved crc S.fileId { m with name := S.name } d)
    refine ⟨o, _, _, ho, Frame.saved crc _, Manifest.get_saved_self .., ?_, hiff⟩
    rw [Manifest.get_saved_incoming]
    exact hheld
  · obtain ⟨o, ho, hiff⟩ := h.exec_outcome d
    exact ⟨o, d, m, ho, .refl, hm, h, hiff⟩

end Source.Held

theorem NoneWhole.fresh {crc : Bytes → UInt32} {finals : Path} (sameFs : Bool) :
    NoneWhole crc (Disk.fresh finals sameFs) := by
  intro id m hm
  cases hm

namespace Tidy

variable {crc : Bytes → UInt32} {finals : Path} {Ss : List Source} {d d' : Disk}

theorem fresh (sameFs : Bool) : Tidy crc finals Ss (Disk.fresh finals sameFs) :=
  ⟨(Tree.fresh sameFs), fun _ => .inl ⟨rfl, rfl⟩⟩

theorem held_of (ha : Apart finals Ss) (h : Tidy crc finals Ss d) {S : Source} (hS : S ∈ Ss) :
    (d.get (.manifest S.fileId) = none ∧ d.get (.incoming S.fileId) = none) ∨
      ∃ m : Manifest, d.get (.manifest S.fileId) = some (m.bytes crc) ∧ S.Held m (d.get (.incoming S.fileId)) := by
  rcases h.held S.fileId with hnone | ⟨T, hT, hid, m, hm, hh⟩
  · exact .inl hnone
  · refine .inr ⟨m, hm, hh.pos, hh.count, hh.bitmap, ?_, hh.size, hh.present⟩
    rw [ha.name S hS T hT hid.symm]
    exact hh.name

theorem not_whole (hn : NoneWhole crc d) {S : Source} {m : Manifest} (hm : d.get (.manifest S.fileId) = some (m.bytes crc))
    (hh : S.Held m (d.get (.incoming S.fileId))) : ¬ m.Whole := by
  exact hn S.fileId m (Disk.sidecar_of hm (hh.parse crc))

/-- **Ingesting a name.** -/
theorem ingestManifest (ha : Apart finals Ss) (h : Tidy crc finals Ss d) (hn : NoneWhole crc d) {S : Source} (hS : S ∈ Ss) :
    ∃ o d' m, (Reassembler.ingestManifest crc (S.chunker.manifestPacket S.name)).exec d = (.ok o, d') ∧
      S.Kept crc d o d' m := by
  have hname : Utf8.decodeLossy (S.chunker.manifestPacket S.name).payload = S.name := Utf8.decodeLossy_encode _
  rcases h.held_of ha hS with ⟨h1, h2⟩ | ⟨m, hm, hh⟩
  · rw [Reassembler.exec_ingestManifest_none h1, hname]
    obtain ⟨hfresh, hclear⟩ := @Source.Held.fresh S 0 (S.chunker.manifestPacket S.name).numChunks S.name (by decide)
      S.count_pos S.count_le (.inr rfl)
    obtain ⟨o, d', m', heq, hf, hs, hh, hc⟩ := @Source.Held.nameInto S crc _ _ (Manifest.get_saved_self crc S.fileId _ d)
      (by rw [Manifest.get_saved_incoming, h2]; exact hfresh) hclear (S.chunker.manifestPacket S.name) rfl
    exact ⟨o, d', m', heq, (Frame.saved crc _).trans hf, hs, hh, hc⟩
  · rw [Reassembler.exec_ingestManifest_some hm (hh.parse crc), hname]
    exact hh.nameInto hm (not_whole hn hm hh) rfl

/-- **Ingesting a chunk**: it is deferred with nothing there, or there is a sidecar afterwards. -/
theorem ingestChunk (ha : Apart finals Ss) (h : Tidy crc finals Ss d) (hn : NoneWhole crc d) {S : Source} (hS : S ∈ Ss)
    {i : Nat} {pkt : Packet} (hp : S.IsChunk i pkt) : ∃ o d', (Reassembler.ingestChunk crc pkt).exec d = (.ok o, d') ∧
      ((o ≠ .complete ∧ d' = d) ∨ ∃ m, S.Kept crc d o d' m) := by
  have hid := hp.fileId
  rcases h.held_of ha hS with ⟨h1, h2⟩ | ⟨m, hm, hh⟩
  · rw [Reassembler.exec_ingestChunk_none (by rw [hid]; exact h1)]
    split
    · exact ⟨_, _, rfl, .inl ⟨(fun ho => by cases ho), rfl⟩⟩
    · rw [hid]
      have hlen : (UInt32.ofNat pkt.payload.length).toNat < 2 ^ 30 := by
        have h2 := S.length_piece i
        have h3 := S.payloadSize_le
        rw [hp.payload, UInt32.toNat_ofNat', Nat.mod_eq_of_lt (by omega)]
        omega
      obtain ⟨hfresh, hclear⟩ := @Source.Held.fresh S (UInt32.ofNat pkt.payload.length) pkt.numChunks [] hlen
        (by rw [hp.numChunks]; exact S.count_pos) (by rw [hp.numChunks]; exact S.count_le) (.inl rfl)
      obtain ⟨o, d', m', heq, hf, hs, hh, hc⟩ := @Source.Held.ingestInto S crc _ _ (Manifest.get_saved_self crc S.fileId _ d)
        (by rw [Manifest.get_saved_incoming, h2]; exact hfresh) hclear i pkt hp
      exact ⟨o, d', heq, .inr ⟨m', (Frame.saved crc _).trans hf, hs, hh, hc⟩⟩
  · rw [Reassembler.exec_ingestChunk_some (by rw [hid]; exact hm) (hh.parse crc)]
    obtain ⟨o, d', m', heq, hk⟩ := hh.ingestInto hm (not_whole hn hm hh) hp
    exact ⟨o, d', heq, .inr ⟨m', hk⟩⟩

/-- **Ingesting a packet of a file listed**, whatever its chunk size. -/
theorem ingest_cases (ha : Apart finals Ss) (h : Tidy crc finals Ss d) (hn : NoneWhole crc d) {S : Source} (hS : S ∈ Ss)
    {pkt : Packet} (hp : S.Sends pkt) : ∃ o d', (Reassembler.ingest crc pkt).exec d = (.ok o, d') ∧
      ((o ≠ .complete ∧ d' = d) ∨ ∃ m, S.Kept crc d o d' m) := by
  rcases hp.cases with rfl | ⟨i, hi⟩
  · obtain ⟨o, d', m, heq, hk⟩ := h.ingestManifest ha hn hS
    exact ⟨o, d', heq, .inr ⟨m, hk⟩⟩
  · have hc := h.ingestChunk ha hn hS hi
    unfold Reassembler.ingest
    rcases hi.isChunk with ht | ht <;> rw [ht] <;> exact hc

theorem of_kept (h : Tidy crc finals Ss d) {S : Source} (hS : S ∈ Ss) {o : IngestOutcome} {m : Manifest}
    (hk : S.Kept crc d o d' m) : Tidy crc finals Ss d' := by
  refine ⟨h.toTree.of_node hk.frame.node, fun id => ?_⟩
  by_cases hid : id = S.fileId
  · subst hid
    exact .inr ⟨S, hS, rfl, m, hk.sidecar, hk.held⟩
  · rw [hk.frame.get (.manifest id) hid, hk.frame.get (.incoming id) hid]
    exact h.held id

end Tidy

/-! ## Finalising while renames may fail -/

def FsCall.isRename : FsCall → Bool
  | .rename _ _ => true
  | _           => false

/-- Only a rename out of holding may fail; nothing else does, and the process is not stopped. -/
def mayFailRename (c : FsCall) (s : Strike) (_ : Disk) : Prop := c.isRename = true ∧ s.isFail = true

instance (c : FsCall) (s : Strike) (d : Disk) : Decidable (mayFailRename c s d) :=
  inferInstanceAs (Decidable (c.isRename = true ∧ s.isFail = true))

namespace Reassembler

/-- The rule of a call that is not struck. -/
theorem wp_io_calm {c : FsCall} (hc : c.isRename = false) {d : Disk} {Q : Calls.Res Error (FsCall.Ret c) → Disk → Prop}
    (h : Q ((io c).exec d).1 ((io c).exec d).2) : (io c).wp mayFailRename Q d := by
  have hno : ∀ s, ¬ mayFailRename c s d := fun s hs => Bool.false_ne_true (hc.symm.trans hs.1)
  refine wp_io ?_ (fun n hn => absurd hn (hno _)) (fun n hn => absurd hn (hno _))
  rw [exec_io (rfl : FsCall.sem c d = ((FsCall.sem c d).1, (FsCall.sem c d).2))] at h
  exact h

/-- **Moving the data** ends the same whether or not the rename fails. -/
theorem wp_moveInto_rename {d : Disk} {id : FileId} {dest : Path} {b : Bytes} (h : d.get (.incoming id) = some b)
    (hc : d.mayCreate dest = true) : (moveInto id dest).wp mayFailRename
      (fun r d' => r = .ok () ∧ d' = (d.putFile dest b).del (.incoming id)) d := by
  have hcopy : (do io (.copy (.incoming id) dest); io (.remove (.incoming id)) : Fs Unit).wp mayFailRename
      (fun r d' => r = .ok () ∧ d' = (d.putFile dest b).del (.incoming id)) d := by
    rw [Calls.wp_bind]
    refine wp_io_calm rfl ?_
    rw [exec_copy h hc]
    refine wp_io_calm rfl ?_
    rw [exec_remove (by rw [Disk.get_putFile]; exact h)]
    exact ⟨rfl, rfl⟩
  unfold moveInto
  rw [Calls.wp_bind, Calls.wp_attempt]
  refine wp_io ?_ (fun n _ => hcopy) (fun n hn => absurd hn.2 Bool.false_ne_true)
  cases hs : d.sameFs with
  | true =>
    simp only [FsCall.sem, h, hs, hc, Bool.and_self, if_true]
    exact ⟨rfl, rfl⟩
  | false =>
    simp only [FsCall.sem, h, hs, Bool.false_and, Bool.false_eq_true, if_false]
    exact hcopy

end Reassembler

/-- **Publishing** ends the same whether or not the rename fails. -/
theorem Tree.wp_publish_rename {good : Source → Bytes → Prop} {finals : Path} {Ss : List Source} {d : Disk}
    (ha : Apart finals Ss) (h : Tree good finals Ss d) {S : Source} (hS : S ∈ Ss) {buf b : Bytes}
    (hm : d.get (.manifest S.fileId) = some buf) (hdata : d.get (.incoming S.fileId) = some b) :
    (Reassembler.publish S.fileId (S.ground finals)).wp mayFailRename
      (fun _ d' => d' = d.published S.fileId (S.ground finals) b) d := by
  have hdir : (d.mkdirs (S.ground finals).dropLast.inits).node (S.ground finals).dropLast = some .dir := by
    rw [Disk.node_mkdirs, if_pos ((List.mem_inits _ _).2 (List.prefix_refl _))]
  have hcreate := (h.mkdirs hS (fun p hp => (List.mem_inits _ _).1 hp)).mayCreate ha hS hdir
  unfold Reassembler.publish Reassembler.createParent
  rw [if_neg (Tree.ground_ne_nil S), Calls.wp_bind]
  refine Reassembler.wp_io_calm rfl ?_
  rw [exec_createDirAll (h.parent_clear ha hS)]
  show Calls.Prog.wp _ _ _ (d.mkdirs (S.ground finals).dropLast.inits)
  rw [Calls.wp_bind]
  refine Calls.wp_mono (fun r d' hr => ?_) _ (Reassembler.wp_moveInto_rename hdata hcreate)
  obtain ⟨rfl, rfl⟩ := hr
  show Calls.Prog.wp _ (io (.remove (.manifest S.fileId)) >>= fun _ => pure (S.ground finals)) _ _
  rw [Calls.wp_bind]
  refine Reassembler.wp_io_calm rfl ?_
  rw [exec_remove (b := buf) (by rw [Disk.get_del_ne _ (by simp), Disk.get_putFile, Disk.get_mkdirs]; exact hm)]
  exact rfl

namespace Tidy

variable {crc : Bytes → UInt32} {finals : Path} {Ss : List Source} {d : Disk}

theorem published (h : Tidy crc finals Ss d) {S : Source} (hS : S ∈ Ss) (b : Bytes) :
    Tidy crc finals Ss (d.published S.fileId (S.ground finals) b) := by
  refine ⟨((h.toTree.mkdirs hS (fun p hp => (List.mem_inits _ _).1 hp)).putFile hS trivial).of_node (fun _ => rfl),
    fun id => ?_⟩
  by_cases hid : id = S.fileId
  · subst hid
    exact .inl (Disk.get_published_self _ _)
  · rw [@Disk.get_published d _ (.manifest id) _ _ hid, @Disk.get_published d _ (.incoming id) _ _ hid]
    exact h.held id

/-- **Finalising**, while renames may fail: what is whole is published, and nothing changes otherwise. -/
theorem wp_finalize (ha : Apart finals Ss) (h : Tidy crc finals Ss d) (id : FileId) :
    (Reassembler.finalize crc finals id).wp mayFailRename (fun _ d' =>
      (d' = d ∧ ∀ m, d.sidecar crc id = some m → ¬ m.Whole) ∨
        ∃ S ∈ Ss, S.fileId = id ∧ ∃ b, d' = d.published id (S.ground finals) b) d := by
  have hread : ∀ s, ¬ mayFailRename (.read (.manifest id)) s d := fun s hr => Bool.false_ne_true hr.1
  rcases h.held id with ⟨h1, -⟩ | ⟨S, hS, rfl, m, hm, hh⟩
  · refine Reassembler.wp_finalize_none h1 (fun n hn => absurd hn (hread _)) (fun n hn => absurd hn (hread _)) (.inl ⟨rfl, ?_⟩)
    intro m hm
    rw [Disk.sidecar, h1] at hm
    cases hm
  · have hside := Disk.sidecar_of hm (hh.parse crc)
    refine Reassembler.wp_finalize_some hm (hh.parse crc) hh.isComplete (fun n hn => absurd hn (hread _))
      (fun n hn => absurd hn (hread _)) (fun hpart e => .inl ⟨rfl, fun m' hm' hw => ?_⟩) (fun hall hname => ?_)
    · rw [hside] at hm'
      cases hm'
      exact hpart ⟨decide_eq_true hw.2, hw.1⟩
    · obtain ⟨b, hb⟩ := Option.ne_none_iff_exists'.1 (hh.present 0 (of_decide_eq_true hall 0 hh.pos))
      rw [hh.name.resolve_left hname]
      refine Calls.wp_mono (fun r d' hd' => ?_) _ (h.toTree.wp_publish_rename ha hS hm hb)
      exact .inr ⟨S, hS, rfl, b, hd'⟩

end Tidy

/-! ## Runs -/

namespace GroundEvent

variable {crc : Bytes → UInt32} {finals : Path} {Ss : List Source} {d : Disk}

/-- After a finalise nothing is whole, if only the finalised assembly may have been. -/
theorem tidy_finalize (ha : Apart finals Ss) (h : Tidy crc finals Ss d) {id : FileId}
    (hn : ∀ j, j ≠ id → ∀ m, d.sidecar crc j = some m → ¬ m.Whole) {strikes : List (Option Strike)}
    (hm : (Reassembler.finalize crc finals id).Meets mayFailRename strikes d) :
    Tidy crc finals Ss ((Reassembler.finalize crc finals id).run strikes d).2 ∧
      NoneWhole crc ((Reassembler.finalize crc finals id).run strikes d).2 := by
  rcases Calls.wp_sound _ (h.wp_finalize ha id) strikes hm with ⟨heq, hid⟩ | ⟨S, hS, rfl, b, heq⟩
  · rw [heq]
    refine ⟨h, fun j m hj => ?_⟩
    by_cases hji : j = id
    · subst hji
      exact hid m hj
    · exact hn j hji m hj
  · rw [heq]
    refine ⟨h.published hS b, fun j m hj => ?_⟩
    by_cases hji : j = S.fileId
    · subst hji
      rw [Disk.sidecar, (Disk.get_published_self _ _).1] at hj
      cases hj
    · refine hn j hji m ?_
      rw [Disk.sidecar, @Disk.get_published d _ (.manifest j) _ _ hji] at hj
      exact hj

/-- **One event in which nothing but renames fails** leaves nothing whole in holding. -/
theorem tidy_step (ha : Apart finals Ss) (h : Tidy crc finals Ss d) (hn : NoneWhole crc d) {e : GroundEvent}
    (he : e.Honest Ss) (hm : e.Survives crc finals mayFailRename d) :
    Tidy crc finals Ss (step crc finals d e) ∧ NoneWhole crc (step crc finals d e) := by
  cases e with
  | finalize id strikes => exact tidy_finalize ha h (fun j _ => hn j) hm
  | packet pkt strikes =>
    obtain ⟨S, hS, hp⟩ := he
    obtain ⟨o, d', ho, hcase⟩ := h.ingest_cases ha hn hS hp
    rw [step_packet ho]
    rcases hcase with ⟨hne, rfl⟩ | ⟨m, hk⟩
    · rw [if_neg hne]
      exact ⟨h, hn⟩
    · have h' := h.of_kept hS hk
      have hside := Disk.sidecar_of hk.sidecar (hk.held.parse crc)
      have hother : ∀ j, j ≠ S.fileId → ∀ m, d'.sidecar crc j = some m → ¬ m.Whole := by
        intro j hj m' hm'
        rw [Disk.sidecar, hk.frame.get (.manifest j) hj] at hm'
        exact hn j m' hm'
      by_cases hc : o = .complete
      · subst hc
        exact tidy_finalize ha h' (by rw [hp.fileId]; exact hother) ((survives_packet ho).1 hm)
      · rw [if_neg hc]
        refine ⟨h', fun j m' hm' => ?_⟩
        by_cases hj : j = S.fileId
        · subst hj
          rw [hside] at hm'
          cases hm'
          exact mt hk.complete.2 hc
        · exact hother j hj m' hm'

theorem runSurvives_take {may : FsCall → Strike → Disk → Prop} : ∀ (es : List GroundEvent) (k : Nat) {d : Disk},
    RunSurvives crc finals may d es → RunSurvives crc finals may d (es.take k)
  | _, 0, _, _           => trivial
  | [], _ + 1, _, _      => trivial
  | _ :: es, k + 1, _, h => ⟨h.1, runSurvives_take es k h.2⟩

/-- **Along every such run nothing whole stays in holding.** -/
theorem tidy_run (ha : Apart finals Ss) : ∀ (es : List GroundEvent) {d : Disk}, Tidy crc finals Ss d → NoneWhole crc d →
    (∀ e ∈ es, e.Honest Ss) → RunSurvives crc finals mayFailRename d es →
    Tidy crc finals Ss (run crc finals d es) ∧ NoneWhole crc (run crc finals d es)
  | [], _, h, hn, _, _        => ⟨h, hn⟩
  | e :: es, _, h, hn, he, hm => by
    obtain ⟨h', hn'⟩ := tidy_step ha h hn (he e List.mem_cons_self) hm.1
    exact tidy_run ha es h' hn' (fun e' h' => he e' (List.mem_cons_of_mem _ h')) hm.2

theorem survives_nil (may : FsCall → Strike → Disk → Prop) (pkt : Packet) (d : Disk) :
    Survives crc finals may d (.packet pkt []) := by
  simp only [Survives]
  split
  · exact Calls.meets_nil _ _ _
  · trivial

end GroundEvent

/-! ## Runs without failures -/

theorem Ground.tidy {crc : Bytes → UInt32} {finals : Path} {Ss : List Source} {d : Disk} (h : Ground crc finals Ss d) :
    Tidy crc finals Ss d := by
  refine ⟨⟨fun p b hp => ?_, h.dirs, h.root⟩, fun id => ?_⟩
  · obtain ⟨S, hS, hg, -⟩ := h.files p b hp
    exact ⟨S, hS, hg, trivial⟩
  · rcases h.held id with hnone | ⟨S, hS, rfl, a, m, hm, hsd⟩
    · exact .inl hnone
    · refine .inr ⟨S, hS, rfl, m, hm, ?_, ?_, hsd.bitmap, ?_, ?_, fun i hi => ?_⟩
      · rw [hsd.count]
        exact S.count_pos
      · rw [hsd.count]
        exact S.count_le
      · rw [hsd.name]
        split
        · exact .inr rfl
        · exact .inl rfl
      · rw [hsd.size]
        have := S.stride_le
        split <;> omega
      · exact hsd.present (Finset.ne_empty_of_mem ((hsd.has i).1 hi))

namespace NoneWhole

variable {crc : Bytes → UInt32} {finals : Path} {Ss : List Source} {d : Disk}

/-- An assembly whose sidecar is not whole lacks a chunk or the name. -/
theorem full_getD (h : NoneWhole crc d) {S : Source} {a : Option Progress} (ha : S.Assembly crc d a) :
    (a.getD Progress.empty).full S.count = false := by
  cases a with
  | none => rfl
  | some a =>
    obtain ⟨m, hm, hsd⟩ := ha
    rw [Bool.eq_false_iff]
    intro hfull
    rw [Option.getD_some, Progress.full, Bool.and_eq_true, decide_eq_true_iff] at hfull
    refine h S.fileId m (Disk.sidecar_of hm (hsd.parse crc)) ⟨?_, fun i hi => ?_⟩
    · rw [hsd.name, if_pos hfull.1]
      exact S.nameNe
    · rw [hsd.count] at hi
      exact (hsd.has i).2 (hfull.2 (Finset.mem_range.2 hi))

theorem receivePacket (hs : Streams finals Ss) (hg : Ground crc finals Ss d) (h : NoneWhole crc d) {S : Source}
    (hS : S ∈ Ss) {pkt : Packet} (hp : S.Sends pkt) : NoneWhole crc ((receivePacket crc finals pkt).exec d).2 := by
  rw [← GroundEvent.step_packet_nil]
  have he : (GroundEvent.packet pkt []).Honest Ss := ⟨S, hS, hp⟩
  exact (GroundEvent.tidy_step hs.lands hg.tidy h he (GroundEvent.survives_nil _ pkt d)).2

theorem receiveAll (hs : Streams finals Ss) : ∀ (ds : List Bytes) {d : Disk}, Ground crc finals Ss d → NoneWhole crc d →
    (∀ b ∈ ds, Ground.Honest crc Ss b) → NoneWhole crc (receiveAll crc finals ds d)
  | [], _, _, h, _        => h
  | b :: ds, d, hg, h, hb => by
    refine receiveAll hs ds (hg.receive hs (hb b List.mem_cons_self)) ?_ (fun c hc => hb c (List.mem_cons_of_mem _ hc))
    obtain ⟨S, hS, pkt, hp, rfl⟩ := hb b List.mem_cons_self
    show NoneWhole crc ((receive crc finals (pkt.encode crc)).exec d).2
    rw [exec_receive_encode crc finals hp.payload_lt]
    split
    · exact h.receivePacket hs hg hS hp
    · exact h

/-- **Without failures nothing whole is in holding.** -/
theorem of_reached (hs : Streams finals Ss) (h : Reached crc finals Ss d) : NoneWhole crc d := by
  obtain ⟨sameFs, ds, hds, rfl⟩ := h
  exact receiveAll hs ds (Ground.fresh sameFs) (fresh sameFs) hds

end NoneWhole

end Parachuter
