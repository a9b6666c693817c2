import Parachuter.Arrivals
/-!
# Ground — what the ground holds while packets of many files arrive

`Streams finals Ss` lists the files being sent and what keeps them apart: files of one id are one file, cut into
different numbers of chunks; files of different ids land on paths of which neither lies below the other.  `Ground` is
the invariant: every assembly in holding is one of some file listed, and the tree under the final directory has, as
files, only files listed, whole and at their place.  It survives ingesting any packet of the files listed
(`Ground.ingest`) and finalising any id (`Ground.finalize`).
-/
namespace Parachuter

open Blob (Bytes)
open Calls (Res)

/-- Where a file lands. -/
def Source.ground (S : Source) (finals : Path) : Path := groundPath finals S.name

theorem Source.finals_under (S : Source) (finals : Path) : finals <+: S.ground finals := List.prefix_append _ _

theorem Source.ground_ne_finals (S : Source) (finals : Path) : S.ground finals ≠ finals := by
  intro h
  exact S.nameOk (List.append_right_eq_self.1 h)

/-- Files of one id have one name, and files of different ids land on paths of which neither lies below the other. -/
structure Apart (finals : Path) (Ss : List Source) : Prop where
  name  : ∀ S ∈ Ss, ∀ T ∈ Ss, S.fileId = T.fileId → S.name = T.name
  apart : ∀ S ∈ Ss, ∀ T ∈ Ss, S.fileId ≠ T.fileId → ¬ S.ground finals <+: T.ground finals

/-- The files being sent to one ground station. -/
structure Streams (finals : Path) (Ss : List Source) : Prop where
  /-- Two entries of one id are one file; unless they are one entry, they have different chunk counts. -/
  same  : ∀ S ∈ Ss, ∀ T ∈ Ss, S.fileId = T.fileId → S.name = T.name ∧ S.bytes = T.bytes ∧ (S = T ∨ S.count ≠ T.count)
  apart : ∀ S ∈ Ss, ∀ T ∈ Ss, S.fileId ≠ T.fileId → ¬ S.ground finals <+: T.ground finals

/-- Of two files listed, one lies at or below the other only when they land in one place. -/
theorem Apart.ground_eq {finals : Path} {Ss : List Source} (h : Apart finals Ss) {S T : Source} (hS : S ∈ Ss)
    (hT : T ∈ Ss) (hp : S.ground finals <+: T.ground finals) : S.ground finals = T.ground finals := by
  by_cases hid : S.fileId = T.fileId
  · rw [Source.ground, Source.ground, h.name S hS T hT hid]
  · exact absurd hp (h.apart S hS T hT hid)

namespace Streams

variable {finals : Path} {Ss : List Source}

theorem lands (h : Streams finals Ss) : Apart finals Ss := ⟨fun S hS T hT hid => (h.same S hS T hT hid).1, h.apart⟩

/-- Files that land in one place are one file. -/
theorem bytes_eq (h : Streams finals Ss) {S T : Source} (hS : S ∈ Ss) (hT : T ∈ Ss)
    (hg : S.ground finals = T.ground finals) : S.bytes = T.bytes := by
  by_cases hid : S.fileId = T.fileId
  · exact (h.same S hS T hT hid).2.1
  · exact absurd (hg ▸ List.prefix_refl _) (h.apart S hS T hT hid)

end Streams

/-- The files of the final directory: each is at the place of a file listed, with contents that are good for it. -/
structure Tree (good : Source → Bytes → Prop) (finals : Path) (Ss : List Source) (d : Disk) : Prop where
  files : ∀ p b, d.node p = some (.file b) → ∃ S ∈ Ss, p = S.ground finals ∧ good S b
  dirs  : ∀ p, d.node p = some .dir → p <+: finals ∨ ∃ S ∈ Ss, p <+: S.ground finals ∧ p ≠ S.ground finals
  root  : ∀ p, p <+: finals → d.node p = some .dir

/-- The invariant of the ground. -/
structure Ground (crc : Bytes → UInt32) (finals : Path) (Ss : List Source) (d : Disk) : Prop extends
    Tree (fun S b => b = S.bytes) finals Ss d where
  held : ∀ id, (d.get (.manifest id) = none ∧ d.get (.incoming id) = none) ∨
    ∃ S ∈ Ss, S.fileId = id ∧ ∃ a, S.Assembly crc d (some a)

namespace Source

variable {S : Source} {crc : Bytes → UInt32} {d d' : Disk}

theorem Assembly.congr {a : Option Progress} (h : S.Assembly crc d a)
    (hm : d'.get (.manifest S.fileId) = d.get (.manifest S.fileId))
    (hi : d'.get (.incoming S.fileId) = d.get (.incoming S.fileId)) : S.Assembly crc d' a := by
  cases a with
  | none => exact ⟨hm.trans h.1, hi.trans h.2⟩
  | some a =>
    obtain ⟨m, hg, hs⟩ := h
    exact ⟨m, hm.trans hg, by rw [hi]; exact hs⟩

theorem Assembly.frame {a : Option Progress} {id : FileId} (h : S.Assembly crc d a) (hf : Frame id d d')
    (hid : S.fileId ≠ id) : S.Assembly crc d' a :=
  h.congr (hf.get _ hid) (hf.get _ hid)

end Source

namespace Ground

variable {crc : Bytes → UInt32} {finals : Path} {Ss : List Source} {d d' : Disk}

/-- The invariant after a change to the files of one id, given what they are now. -/
theorem of_frame {id : FileId} (h : Ground crc finals Ss d) (hf : Frame id d d')
    (hid : (d'.get (.manifest id) = none ∧ d'.get (.incoming id) = none) ∨
      ∃ S ∈ Ss, S.fileId = id ∧ ∃ a, S.Assembly crc d' (some a)) : Ground crc finals Ss d' where
  files := fun p b hp => h.files p b (by rw [← hf.node p]; exact hp)
  dirs := fun p hp => h.dirs p (by rw [← hf.node p]; exact hp)
  root := fun p hp => by rw [hf.node p]; exact h.root p hp
  held := fun j => by
    by_cases hj : j = id
    · subst hj; exact hid
    · rcases h.held j with ⟨h1, h2⟩ | ⟨S, hS, rfl, a, ha⟩
      · exact .inl ⟨(hf.get (.manifest j) hj).trans h1, (hf.get (.incoming j) hj).trans h2⟩
      · exact .inr ⟨S, hS, rfl, a, ha.frame hf hj⟩

/-- **Ingesting a packet of a file listed**: the assembly of that id takes an abstract step of that file, or the packet
is turned away because the assembly is of another chunk count. -/
theorem ingest_cases (hs : Streams finals Ss) (h : Ground crc finals Ss d) {S : Source} (hS : S ∈ Ss) {pkt : Packet}
    (hp : S.Sends pkt) :
    (∃ a d', S.Assembly crc d a ∧
      (Reassembler.ingest crc pkt).exec d = (.ok (Progress.step S.count a pkt.delivery).1, d') ∧
      S.Assembly crc d' (Progress.step S.count a pkt.delivery).2 ∧ Frame S.fileId d d') ∨
    (∃ T ∈ Ss, T.fileId = S.fileId ∧ T.count ≠ S.count ∧ (∃ a, T.Assembly crc d (some a)) ∧
      (Reassembler.ingest crc pkt).exec d = (.ok .mismatched, d)) := by
  rcases h.held S.fileId with hnone | ⟨T, hT, hid, a, ha⟩
  · have hnone : S.Assembly crc d none := hnone
    obtain ⟨d', hd'⟩ := Source.ingest_simulates hnone hp
    exact .inl ⟨none, d', hnone, hd'⟩
  · rcases (hs.same T hT S hS hid).2.2 with rfl | hc
    · obtain ⟨d', hd'⟩ := Source.ingest_simulates ha hp
      exact .inl ⟨some a, d', ha, hd'⟩
    · exact .inr ⟨T, hT, hid, hc, ⟨a, ha⟩, Source.ingest_other_count ha hp hid.symm (Ne.symm hc)⟩

theorem of_assembly (h : Ground crc finals Ss d) {S : Source} (hS : S ∈ Ss) {a : Option Progress}
    (ha : S.Assembly crc d' a) (hf : Frame S.fileId d d') : Ground crc finals Ss d' := by
  refine h.of_frame hf ?_
  cases a with
  | none => exact .inl ha
  | some a => exact .inr ⟨S, hS, rfl, a, ha⟩

/-- **The invariant survives an ingest**, and the packet is answered. -/
theorem ingest (hs : Streams finals Ss) (h : Ground crc finals Ss d) {S : Source} (hS : S ∈ Ss) {pkt : Packet}
    (hp : S.Sends pkt) :
    ∃ o d', (Reassembler.ingest crc pkt).exec d = (.ok o, d') ∧ Ground crc finals Ss d' := by
  rcases h.ingest_cases hs hS hp with ⟨a, d', -, hd', ha', hf⟩ | ⟨T, -, -, -, -, hd⟩
  · exact ⟨_, d', hd', h.of_assembly hS ha' hf⟩
  · exact ⟨_, d, hd, h⟩

end Ground

/-! ## Finalising -/

/-- The disk after a file has moved to its place. -/
def Disk.published (d : Disk) (id : FileId) (dest : Path) (b : Bytes) : Disk :=
  (((d.mkdirs dest.dropLast.inits).putFile dest b).del (.incoming id)).del (.manifest id)

theorem Disk.get_published {d : Disk} {id : FileId} {f : HoldingFile} (dest : Path) (b : Bytes) (h : f.id ≠ id) :
    (d.published id dest b).get f = d.get f := by
  unfold Disk.published
  rw [Disk.get_del_ne _ (by rintro rfl; exact h rfl), Disk.get_del_ne _ (by rintro rfl; exact h rfl)]
  rfl

theorem Disk.get_published_self {d : Disk} {id : FileId} (dest : Path) (b : Bytes) :
    (d.published id dest b).get (.manifest id) = none ∧ (d.published id dest b).get (.incoming id) = none := by
  unfold Disk.published
  exact ⟨Disk.get_del_self _ _, by rw [Disk.get_del_ne _ (by simp), Disk.get_del_self]⟩

/-- Publishing one id leaves the assemblies of the others. -/
theorem Source.Assembly.published {S : Source} {crc : Bytes → UInt32} {d : Disk} {a : Option Progress} {id : FileId}
    {dest : Path} {b : Bytes} (h : S.Assembly crc d a) (hid : S.fileId ≠ id) : S.Assembly crc (d.published id dest b) a :=
  h.congr (Disk.get_published dest b hid) (Disk.get_published dest b hid)

namespace Tree

variable {good : Source → Bytes → Prop} {finals : Path} {Ss : List Source} {d : Disk}

theorem ground_ne_nil (S : Source) : S.ground finals ≠ [] := by
  intro h
  have hpre := S.finals_under finals
  rw [h, List.prefix_nil] at hpre
  exact S.ground_ne_finals finals (by rw [h, hpre])

theorem not_prefix_dropLast {p : Path} (hp : p ≠ []) : ¬ p <+: p.dropLast := by
  intro h
  have := h.length_le
  rw [List.length_dropLast] at this
  have := List.length_pos_iff.2 hp
  omega

/-- **No file is in the way** of a listed file's directory. -/
theorem parent_clear (hs : Apart finals Ss) (h : Tree good finals Ss d) {S : Source} (hS : S ∈ Ss) :
    (S.ground finals).dropLast.inits.any d.isFile = false := by
  rw [List.any_eq_false]
  intro p hp hf
  rw [List.mem_inits] at hp
  unfold Disk.isFile at hf
  split at hf
  · rename_i b hb
    obtain ⟨T, hT, rfl, -⟩ := h.files p b hb
    rw [hs.ground_eq hT hS (hp.trans ( List.dropLast_prefix _))] at hp
    exact not_prefix_dropLast (ground_ne_nil S) hp
  · cases hf

/-- **A listed file may be created** once its directory is there. -/
theorem mayCreate (hs : Apart finals Ss) (h : Tree good finals Ss d) {S : Source} (hS : S ∈ Ss)
    (hdir : d.node (S.ground finals).dropLast = some .dir) : d.mayCreate (S.ground finals) = true := by
  have hnd : d.node (S.ground finals) ≠ some .dir := by
    intro hd
    rcases h.dirs _ hd with hp | ⟨T, hT, hp, hne⟩
    · exact S.ground_ne_finals finals ((S.finals_under finals).eq_of_length_le hp.length_le).symm
    · exact hne (hs.ground_eq hS hT hp)
  unfold Disk.mayCreate
  rw [hdir]
  split
  · rename_i he; exact absurd he hnd
  · rfl

/-- Making some of a listed file's directories keeps the tree. -/
theorem mkdirs (h : Tree good finals Ss d) {S : Source} (hS : S ∈ Ss) {ps : List Path}
    (hps : ∀ p ∈ ps, p <+: (S.ground finals).dropLast) : Tree good finals Ss (d.mkdirs ps) where
  files := fun p b hp => by
    rw [Disk.node_mkdirs] at hp
    split at hp
    · cases hp
    · exact h.files p b hp
  dirs := fun p hp => by
    rw [Disk.node_mkdirs] at hp
    split at hp
    · rename_i hm
      refine .inr ⟨S, hS, (hps p hm).trans ( List.dropLast_prefix _), ?_⟩
      rintro rfl
      exact not_prefix_dropLast (ground_ne_nil S) (hps _ hm)
    · exact h.dirs p hp
  root := fun p hp => by
    rw [Disk.node_mkdirs]
    split
    · rfl
    · exact h.root p hp

/-- Writing good contents at a listed file's place keeps the tree. -/
theorem putFile (h : Tree good finals Ss d) {S : Source} (hS : S ∈ Ss) {contents : Bytes} (hgood : good S contents) :
    Tree good finals Ss (d.putFile (S.ground finals) contents) where
  files := fun p b hp => by
    by_cases he : p = S.ground finals
    · subst he
      rw [Disk.node_putFile_self] at hp
      cases hp
      exact ⟨S, hS, rfl, hgood⟩
    · rw [Disk.node_putFile_ne _ _ he] at hp
      exact h.files p b hp
  dirs := fun p hp => by
    by_cases he : p = S.ground finals
    · subst he
      rw [Disk.node_putFile_self] at hp
      cases hp
    · rw [Disk.node_putFile_ne _ _ he] at hp
      exact h.dirs p hp
  root := fun p hp => by
    have he : p ≠ S.ground finals := by
      rintro rfl
      exact S.ground_ne_finals finals ((S.finals_under finals).eq_of_length_le hp.length_le).symm
    rw [Disk.node_putFile_ne _ _ he]
    exact h.root p hp

theorem of_node {d' : Disk} (h : Tree good finals Ss d) (hn : ∀ p, d'.node p = d.node p) : Tree good finals Ss d' where
  files := fun p b hp => h.files p b (by rw [← hn p]; exact hp)
  dirs := fun p hp => h.dirs p (by rw [← hn p]; exact hp)
  root := fun p hp => by rw [hn p]; exact h.root p hp

theorem fresh (sameFs : Bool) : Tree good finals Ss (Disk.fresh finals sameFs) where
  files := fun p b hp => by
    rw [Disk.fresh, Disk.node_mkdirs] at hp
    split at hp
    · cases hp
    · cases hp
  dirs := fun p hp => by
    rw [Disk.fresh, Disk.node_mkdirs] at hp
    split at hp
    · rename_i hm
      exact .inl ((List.mem_inits _ _).1 hm)
    · cases hp
  root := fun p hp => by rw [Disk.fresh, Disk.node_mkdirs, if_pos ((List.mem_inits _ _).2 hp)]

end Tree

namespace Reassembler

/-- **Moving the data** to a place where it may be created, by either branch. -/
theorem exec_moveInto {d : Disk} {id : FileId} {dest : Path} {b : Bytes} (h : d.get (.incoming id) = some b)
    (hc : d.mayCreate dest = true) : (moveInto id dest).exec d = (.ok (), (d.putFile dest b).del (.incoming id)) := by
  unfold moveInto
  rw [Calls.exec_bind, Calls.exec_attempt]
  cases hs : d.sameFs with
  | true =>
    rw [exec_rename h hs hc]
    rfl
  | false =>
    rw [exec_rename_refused h (by rw [hs]; simp)]
    simp only [Calls.reify_err, Calls.andThen_ok]
    rw [Calls.exec_bind, exec_copy h hc, Calls.andThen_ok, exec_remove (by rw [Disk.get_putFile]; exact h)]

end Reassembler

namespace Ground

variable {crc : Bytes → UInt32} {finals : Path} {Ss : List Source} {d : Disk}

/-- **Finalising a full assembly publishes the file.** -/
theorem exec_finalize (hs : Streams finals Ss) (h : Ground crc finals Ss d) {S : Source} (hS : S ∈ Ss) {a : Progress}
    (ha : S.Assembly crc d (some a)) (hf : a.full S.count = true) :
    (Reassembler.finalize crc finals S.fileId).exec d =
      (.ok (S.ground finals), d.published S.fileId (S.ground finals) S.bytes) := by
  obtain ⟨m, hm, hsd⟩ := ha
  rw [Progress.full, Bool.and_eq_true, decide_eq_true_iff] at hf
  have hne : S.name.isEmpty = false := by simp [S.nameNe]
  have hname : m.name = S.name := by rw [hsd.name, if_pos hf.1]
  have hdata := hsd.data_eq hf.2
  have hdir : (d.mkdirs (S.ground finals).dropLast.inits).node (S.ground finals).dropLast = some .dir := by
    rw [Disk.node_mkdirs, if_pos ((List.mem_inits _ _).2 (List.prefix_refl _))]
  have htree : Tree _ finals Ss (d.mkdirs (S.ground finals).dropLast.inits) :=
    h.toTree.mkdirs hS (fun p hp => (List.mem_inits _ _).1 hp)
  unfold Reassembler.finalize
  rw [Calls.exec_bind, Manifest.exec_open_some hm (hsd.parse crc), Calls.andThen_ok, hsd.isComplete,
    decide_eq_true hf.2]
  simp only [hname, hne, Bool.false_eq_true, if_false]
  show (Reassembler.publish S.fileId (S.ground finals)).exec d = _
  unfold Reassembler.publish Reassembler.createParent
  rw [if_neg (Tree.ground_ne_nil S), Calls.exec_bind, exec_createDirAll (h.parent_clear hs.lands hS), Calls.andThen_ok,
    Calls.exec_bind, Reassembler.exec_moveInto (by rw [Disk.get_mkdirs]; exact hdata) (htree.mayCreate hs.lands hS hdir),
    Calls.andThen_ok, Calls.exec_bind, exec_remove (b := m.bytes crc) (by
      rw [Disk.get_del_ne _ (by simp), Disk.get_putFile, Disk.get_mkdirs]; exact hm)]
  rfl

/-- **Finalising too early** is refused, and nothing changes. -/
theorem exec_finalize_early {S : Source} {a : Progress} (ha : S.Assembly crc d (some a)) (hf : a.full S.count = false) :
    ∃ e, (Reassembler.finalize crc finals S.fileId).exec d = (.err e, d) := by
  obtain ⟨m, hm, hsd⟩ := ha
  unfold Reassembler.finalize
  rw [Calls.exec_bind, Manifest.exec_open_some hm (hsd.parse crc), Calls.andThen_ok, hsd.isComplete]
  rw [Progress.full] at hf
  cases hr : decide (Finset.range S.count ⊆ a.got) with
  | false => exact ⟨_, rfl⟩
  | true =>
    rw [hr, Bool.and_true] at hf
    simp only [hsd.name_isEmpty, hf, Bool.not_false, if_true]
    exact ⟨_, rfl⟩

/-- **The invariant survives publishing a file listed.** -/
theorem published (h : Ground crc finals Ss d) {S : Source} (hS : S ∈ Ss) :
    Ground crc finals Ss (d.published S.fileId (S.ground finals) S.bytes) := by
  have htree : Tree _ finals Ss (d.published S.fileId (S.ground finals) S.bytes) :=
    ((h.toTree.mkdirs hS (fun p hp => (List.mem_inits _ _).1 hp)).putFile hS rfl).of_node (fun _ => rfl)
  refine ⟨htree, fun id => ?_⟩
  by_cases hid : id = S.fileId
  · subst hid
    exact .inl (Disk.get_published_self _ _)
  · rcases h.held id with ⟨h1, h2⟩ | ⟨T, hT, rfl, a, ha⟩
    · exact .inl ⟨(@Disk.get_published d _ (.manifest id) _ _ hid).trans h1,
        (@Disk.get_published d _ (.incoming id) _ _ hid).trans h2⟩
    · exact .inr ⟨T, hT, rfl, a, ha.published hid⟩

/-- **The invariant survives finalising any id.** -/
theorem finalize (hs : Streams finals Ss) (h : Ground crc finals Ss d) (id : FileId) :
    Ground crc finals Ss ((Reassembler.finalize crc finals id).exec d).2 := by
  rcases h.held id with ⟨h1, -⟩ | ⟨S, hS, rfl, a, ha⟩
  · unfold Reassembler.finalize
    rw [Calls.exec_bind, Manifest.exec_open_none h1]
    exact h
  · cases hf : a.full S.count with
    | true =>
      rw [h.exec_finalize hs hS ha hf]
      exact h.published hS
    | false =>
      obtain ⟨e, he⟩ := @exec_finalize_early crc finals d S a ha hf
      rw [he]
      exact h

/-! ## One datagram -/

/-- A datagram that is a packet of a file listed. -/
def Honest (crc : Bytes → UInt32) (Ss : List Source) (datagram : Bytes) : Prop :=
  ∃ S ∈ Ss, ∃ pkt, S.Sends pkt ∧ datagram = pkt.encode crc

/-- **The invariant survives one turn of the receive loop on a packet.** -/
theorem receivePacket (hs : Streams finals Ss) (h : Ground crc finals Ss d) {S : Source} (hS : S ∈ Ss) {pkt : Packet}
    (hp : S.Sends pkt) : Ground crc finals Ss ((receivePacket crc finals pkt).exec d).2 := by
  obtain ⟨o, d', ho, h'⟩ := h.ingest hs hS hp
  rw [receivePacket_ok ho]
  split
  · exact h'.finalize hs pkt.fileId
  · exact h'

theorem receive (hs : Streams finals Ss) (h : Ground crc finals Ss d) {datagram : Bytes}
    (hb : Honest crc Ss datagram) : Ground crc finals Ss ((receive crc finals datagram).exec d).2 := by
  obtain ⟨S, hS, pkt, hp, rfl⟩ := hb
  rw [exec_receive_encode crc finals hp.payload_lt]
  split
  · exact h.receivePacket hs hS hp
  · exact h

end Ground

/-! ## A run of the receive loop -/

/-- The disk after a sequence of datagrams. -/
def receiveAll (crc : Bytes → UInt32) (finals : Path) (ds : List Bytes) (d : Disk) : Disk :=
  ds.foldl (fun d b => ((receive crc finals b).exec d).2) d

/-- A packet that fits the loop's buffer is received, and then the datagrams after it. -/
theorem receiveAll_encode_cons (crc : Bytes → UInt32) (finals : Path) {p : Packet} (hp : p.payload.length < 2 ^ 32)
    (hfit : (p.encode crc).length ≤ MAX_CHUNK_SIZE) (ds : List Bytes) (d : Disk) :
    receiveAll crc finals (p.encode crc :: ds) d = receiveAll crc finals ds ((receivePacket crc finals p).exec d).2 := by
  have hrec : (receive crc finals (p.encode crc)).exec d = (receivePacket crc finals p).exec d := by
    rw [exec_receive_encode crc finals hp, if_pos hfit]
  unfold receiveAll
  rw [List.foldl_cons, hrec]

/-- A disk reached from empty directories by datagrams of the files listed, without failures. -/
def Reached (crc : Bytes → UInt32) (finals : Path) (Ss : List Source) (d : Disk) : Prop :=
  ∃ sameFs ds, (∀ b ∈ ds, Ground.Honest crc Ss b) ∧ d = receiveAll crc finals ds (Disk.fresh finals sameFs)

/-- More packets of the files listed reach further. -/
theorem Reached.receiveAll {crc : Bytes → UInt32} {finals : Path} {Ss : List Source} {d : Disk}
    (h : Reached crc finals Ss d) {ds : List Bytes} (hds : ∀ b ∈ ds, Ground.Honest crc Ss b) :
    Reached crc finals Ss (Parachuter.receiveAll crc finals ds d) := by
  obtain ⟨sameFs, ds', hds', rfl⟩ := h
  refine ⟨sameFs, ds' ++ ds, fun b hb => ?_, ?_⟩
  · rcases List.mem_append.1 hb with hb | hb
    · exact hds' b hb
    · exact hds b hb
  · unfold Parachuter.receiveAll
    rw [List.foldl_append]

namespace Ground

variable {crc : Bytes → UInt32} {finals : Path} {Ss : List Source}

theorem fresh (sameFs : Bool) : Ground crc finals Ss (Disk.fresh finals sameFs) :=
  ⟨(Tree.fresh sameFs), fun _ => .inl ⟨rfl, rfl⟩⟩

/-- **The invariant holds along every run of honest datagrams.** -/
theorem receiveAll (hs : Streams finals Ss) : ∀ (ds : List Bytes) {d : Disk}, Ground crc finals Ss d →
    (∀ b ∈ ds, Honest crc Ss b) → Ground crc finals Ss (receiveAll crc finals ds d)
  | [], _, h, _       => h
  | b :: ds, _, h, hb =>
    receiveAll hs ds (h.receive hs (hb b List.mem_cons_self)) (fun c hc => hb c (List.mem_cons_of_mem _ hc))

theorem of_reached (hs : Streams finals Ss) {d : Disk} (h : Reached crc finals Ss d) : Ground crc finals Ss d := by
  obtain ⟨sameFs, ds, hds, rfl⟩ := h
  exact receiveAll hs ds (fresh sameFs) hds

/-- A sidecar that can be read is that of an assembly of some file listed. -/
theorem sound {d : Disk} (h : Ground crc finals Ss d) {id : FileId} {m : Manifest} (hm : d.sidecar crc id = some m) :
    ∃ S ∈ Ss, S.fileId = id ∧ d.get (.manifest id) = some (m.bytes crc) ∧ ∃ a, S.Sound m (d.get (.incoming id)) a := by
  obtain ⟨buf, hbuf, hparse⟩ := Disk.sidecar_some hm
  rcases h.held id with ⟨h1, -⟩ | ⟨S, hS, rfl, a, m', hm', hs⟩
  · rw [h1] at hbuf
    cases hbuf
  · rw [hm'] at hbuf
    cases hbuf
    rw [hs.parse crc] at hparse
    cases hparse
    exact ⟨S, hS, rfl, hm', a, hs⟩

theorem delivered (hs : Streams finals Ss) {d : Disk} (h : Ground crc finals Ss d) :
    (∀ S ∈ Ss, d.node (S.ground finals) = none ∨ d.node (S.ground finals) = some (.file S.bytes)) ∧
    ∀ p b, d.node p = some (.file b) → ∃ S ∈ Ss, p = S.ground finals := by
  constructor
  · intro S hS
    cases hn : d.node (S.ground finals) with
    | none => exact .inl rfl
    | some n =>
      cases n with
      | file b =>
        obtain ⟨T, hT, hg, rfl⟩ := h.files _ _ hn
        rw [hs.bytes_eq hS hT hg]
        exact .inr rfl
      | dir =>
        -- a directory in the file's place would be above another file
        exfalso
        rcases h.dirs _ hn with hp | ⟨T, hT, hp, hne⟩
        · exact S.ground_ne_finals finals ((S.finals_under finals).eq_of_length_le hp.length_le).symm
        · exact hne (hs.lands.ground_eq hS hT hp)
  · intro p b hp
    obtain ⟨S, hS, hg, -⟩ := h.files p b hp
    exact ⟨S, hS, hg⟩

end Ground

/-- Files of different ids, none of which lands at or below another. -/
theorem Streams.of_distinct {finals : Path} {Ss : List Source} (hid : ∀ S ∈ Ss, ∀ T ∈ Ss, S.fileId = T.fileId → S = T)
    (hapart : ∀ S ∈ Ss, ∀ T ∈ Ss, S.fileId ≠ T.fileId → ¬ S.ground finals <+: T.ground finals) : Streams finals Ss := by
  refine ⟨fun S hS T hT h => ?_, hapart⟩
  obtain rfl := hid S hS T hT h
  exact ⟨rfl, rfl, .inl rfl⟩

theorem Source.streams_single (S : Source) (finals : Path) : Streams finals [S] := by
  refine ⟨fun A hA B hB _ => ?_, fun A hA B hB hid => ?_⟩
  · rw [List.mem_singleton] at hA hB
    subst hA; subst hB
    exact ⟨rfl, rfl, .inl rfl⟩
  · rw [List.mem_singleton] at hA hB
    subst hA; subst hB
    exact absurd rfl hid

/-- **End-to-end delivery.**  Whatever arrives of a set of files, in whatever order, the final directory holds after
every datagram only files of the set, each whole and at its place. -/
theorem delivery_exact (crc : Bytes → UInt32) (finals : Path) (sameFs : Bool) (Ss : List Source)
    (hid : ∀ S ∈ Ss, ∀ T ∈ Ss, S.fileId = T.fileId → S = T)
    (hapart : ∀ S ∈ Ss, ∀ T ∈ Ss, S.fileId ≠ T.fileId → ¬ S.ground finals <+: T.ground finals)
    (ds : List Bytes) (hds : ∀ b ∈ ds, Ground.Honest crc Ss b) (k : Nat) :
    (∀ S ∈ Ss, (receiveAll crc finals (ds.take k) (Disk.fresh finals sameFs)).node (S.ground finals) = none ∨
      (receiveAll crc finals (ds.take k) (Disk.fresh finals sameFs)).node (S.ground finals) = some (.file S.bytes)) ∧
    ∀ p b, (receiveAll crc finals (ds.take k) (Disk.fresh finals sameFs)).node p = some (.file b) →
      ∃ S ∈ Ss, p = S.ground finals := by
  have hs := Streams.of_distinct hid hapart
  have h := Ground.receiveAll hs (ds.take k) (@Ground.fresh crc finals Ss sameFs)
    (fun b hb => hds b (List.mem_of_mem_take hb))
  exact h.delivered hs

/-- Two files of two chunks each: of the second a chunk arrives, of the first everything does, the last chunk first. -/
theorem delivery_exact_two_files :
    let ps := Source.sampleA.dataPackets [1, 0] ++ Source.sampleB.dataPackets [0] ++ Source.sampleA.dataPackets [1] ++
      [Source.sampleA.chunker.manifestPacket Source.sampleA.name]
    let d := receiveAll crc32 [] ((ps.map (Packet.encode crc32)).take 5) (Disk.fresh [] false)
    d.node (Source.sampleA.ground []) = some (.file Source.sampleA.bytes) ∧
    (d.node (Source.sampleB.ground []) = none ∨ d.node (Source.sampleB.ground []) = some (.file Source.sampleB.bytes)) := by
  intro ps d
  refine ⟨by decide +kernel, ?_⟩
  refine (delivery_exact crc32 [] false [Source.sampleA, Source.sampleB] ?_ (by decide)
    (ps.map (Packet.encode crc32)) ?_ 5).1 Source.sampleB (by simp)
  · intro S hS T hT h
    simp only [List.mem_cons, List.not_mem_nil, or_false] at hS hT
    rcases hS with rfl | rfl <;> rcases hT with rfl | rfl <;> first | rfl | exact absurd h (by decide)
  · intro b hb
    obtain ⟨p, hp, rfl⟩ := List.mem_map.1 hb
    simp only [ps, List.mem_append, List.mem_singleton] at hp
    rcases hp with ((hp | hp) | hp) | rfl
    · exact ⟨_, by simp, p, Source.sends_dataPackets hp, rfl⟩
    · exact ⟨Source.sampleB, by simp, p, Source.sends_dataPackets hp, rfl⟩
    · exact ⟨_, by simp, p, Source.sends_dataPackets hp, rfl⟩
    · exact ⟨Source.sampleA, by simp, _, .manifest, rfl⟩

end Parachuter
