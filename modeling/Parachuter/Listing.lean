import Parachuter.Daemon
import Parachuter.Growth
import Parachuter.Newest
/-!
# Listing — the receiver's holding directory by its file names, and the status made of it (`receiver.rs`)

The holding directory is read by the names of its entries: a sidecar is called `<id>.parmanifest`, and `in_flight` parses
the id back.  A status lists the directory once and then opens each sidecar anew, while packets come in and assemblies are
finalised.  `Poll` says where its reads fall among the receiver's steps; `status_true` says what a status says then, and
`statuses_progress` what two of them say one after the other.
-/
namespace Parachuter

open Blob (Bytes)
open Strings (showInt)

/-! ## File names -/

/-- `incoming_path`, `manifest_path` and the name a sidecar is written under first, below the holding directory. -/
def HoldingFile.fileName : HoldingFile → Text
  | .incoming id    => showInt id.toInt ++ ".incoming".toList
  | .manifest id    => showInt id.toInt ++ ".parmanifest".toList
  | .manifestTmp id => showInt id.toInt ++ ".parmanifest.tmp".toList

namespace Reassembler

/-- The id an entry of the holding directory is listed under, if it is called as a sidecar. -/
def listedId (name : Text) : Option FileId :=
  (Scanner.stripSuffix name ".parmanifest".toList).bind Reconcile.parseI64

/-- `in_flight`, over the names of the directory's entries in whatever order they come. -/
def listInFlight (names : List Text) : List FileId := (names.filterMap listedId).mergeSort (fun a b => decide (a.le b))

end Reassembler

/-- The names of the entries of the holding directory: those of the receiver's files, and of others that are not called as
sidecars. -/
def Disk.ReadDir (d : Disk) (names : List Text) : Prop :=
  ∃ (files : List HoldingFile) (others : List Text), names.Perm (files.map HoldingFile.fileName ++ others) ∧
    files.Nodup ∧ (∀ f, f ∈ files ↔ d.get f ≠ none) ∧ ∀ name ∈ others, Reassembler.listedId name = none

namespace Reassembler

theorem not_suffix_of_last {s ext ext' : Text} {c c' : Char} (h : ext.getLast? = some c) (h' : ext'.getLast? = some c')
    (hne : c ≠ c') : ¬ ext <:+ s ++ ext' := by
  rintro ⟨t, ht⟩
  have hlast := congrArg List.getLast? ht
  rw [List.getLast?_append, List.getLast?_append, h, h'] at hlast
  exact hne (Option.some.inj hlast)

/-- **A sidecar's name gives its id back**, and no other file of the receiver is listed. -/
theorem listedId_fileName (f : HoldingFile) : listedId f.fileName = sidecarId f := by
  cases f with
  | manifest id =>
    rw [listedId, HoldingFile.fileName, Reconcile.stripSuffix_append, Option.bind_some, Reconcile.parseI64_showInt]
    rfl
  | incoming id =>
    have hno : ¬ ".parmanifest".toList <:+ showInt id.toInt ++ ".incoming".toList :=
      not_suffix_of_last (show _ = some 't' by decide) (show _ = some 'g' by decide) (by decide)
    rw [listedId, HoldingFile.fileName, Scanner.stripSuffix, if_neg hno]
    rfl
  | manifestTmp id =>
    have hno : ¬ ".parmanifest".toList <:+ showInt id.toInt ++ ".parmanifest.tmp".toList :=
      not_suffix_of_last (show _ = some 't' by decide) (show _ = some 'p' by decide) (by decide)
    rw [listedId, HoldingFile.fileName, Scanner.stripSuffix, if_neg hno]
    rfl

theorem mem_filterMap_sidecarId {files : List HoldingFile} {id : FileId} :
    id ∈ files.filterMap sidecarId ↔ .manifest id ∈ files := by
  rw [List.mem_filterMap]
  constructor
  · rintro ⟨f, hf, hid⟩
    cases f <;> cases hid
    exact hf
  · exact fun h => ⟨_, h, rfl⟩

/-- **The ids read off the names are those of the sidecars there are**, ascending. -/
theorem listInFlight_eq {d : Disk} {names : List Text} (h : d.ReadDir names) : listInFlight names = inFlight d := by
  obtain ⟨files, others, hperm, hnodup, hfiles, hothers⟩ := h
  have hlisted : (names.filterMap listedId).Perm (files.filterMap sidecarId) := by
    refine (hperm.filterMap listedId).trans (.of_eq ?_)
    rw [List.filterMap_append, List.filterMap_eq_nil_iff.2 hothers, List.append_nil, List.filterMap_map]
    exact congrArg (fun f => files.filterMap f) (funext listedId_fileName)
  have hsame : (files.filterMap sidecarId).Perm (inFlight d) := by
    refine (List.perm_ext_iff_of_nodup (hnodup.filterMap sidecarId_inj) (nodup_inFlight d)).2 (fun id => ?_)
    rw [mem_filterMap_sidecarId, hfiles, mem_inFlight]
  have hsorted : (listInFlight names).Pairwise FileId.le := List.pairwise_mergeSort' FileId.le _
  exact List.Perm.eq_of_pairwise' hsorted (Finset.pairwise_sort _ _)
    ((List.mergeSort_perm _ _).trans (hlisted.trans hsame))

end Reassembler

/-! ## The status -/

namespace ReceiverControl

/-- One assembly of a status, on the disk as its sidecar is opened; it is left out when that fails. -/
def assembly (crc : Bytes → UInt32) (d : Disk) (age : Option UInt64) (id : FileId) : Option AssemblyState :=
  match ((Reassembler.stats crc id).exec d).1 with
  | .ok s => some ⟨id, s.chunksTotal, s.chunksReceived, s.hasName, age.getD 0⟩
  | _     => none

/-- `snapshot`: `names` is what listing the holding directory answers, `onDisk id` the disk when the sidecar of `id` is
opened, and `ages id` what `age_secs` answers. -/
def snapshot (crc : Bytes → UInt32) (bind : String) (names : Except IoError (List Text)) (onDisk : FileId → Disk)
    (ages : FileId → Option UInt64) : Except Error ReceiverStatus :=
  match names with
  | .error e  => .error (.io e)
  | .ok names => .ok ⟨bind, (Reassembler.listInFlight names).filterMap (fun id => assembly crc (onDisk id) (ages id) id)⟩

def handle (crc : Bytes → UInt32) (texts : ForeignTexts) (bind : String) (names : Except IoError (List Text))
    (onDisk : FileId → Disk) (ages : FileId → Option UInt64) : Request → Response
  | .ping           => .pong "receiver" CARGO_PKG_VERSION
  | .receiverStatus =>
    match snapshot crc bind names onDisk ages with
    | .ok status => .receiverStatus status
    | .error e   => .error (e.display texts)
  | _               => .unsupported

end ReceiverControl

/-- Where the reads of a status fall among the receiver's steps. -/
structure Poll where
  listedAt : Nat
  openedAt : FileId → Nat
  later    : ∀ id, listedAt ≤ openedAt id
  names    : List Text
  ages     : FileId → Option UInt64

section

variable (crc : Bytes → UInt32) (finals : Path) (sameFs : Bool) (es : List ReceiverStep)

/-- The receiver's disk after its first `k` steps. -/
def ReceiverStep.moment (k : Nat) : Disk := ReceiverStep.run crc finals (Disk.fresh finals sameFs) (es.take k)

namespace Poll

/-- The assemblies of the status. -/
def assemblies (p : Poll) : List AssemblyState :=
  (Reassembler.listInFlight p.names).filterMap
    (fun id => ReceiverControl.assembly crc (ReceiverStep.moment crc finals sameFs es (p.openedAt id)) (p.ages id) id)

/-- The names are those of the directory as it is listed. -/
def Listed (p : Poll) : Prop := (ReceiverStep.moment crc finals sameFs es p.listedAt).ReadDir p.names

end Poll

end

/-- What an assembly of a status says of a sidecar. -/
structure AssemblyState.Of (a : AssemblyState) (m : Manifest) : Prop where
  total    : a.chunksTotal = m.numChunks
  received : a.chunksReceived.toNat = ((Finset.range m.numChunks.toNat).filter (fun i => m.has i = true)).card
  hasName  : a.hasName = true ↔ m.name ≠ []

namespace ReceiverControl

variable {crc : Bytes → UInt32} {d : Disk} {age : Option UInt64} {id : FileId} {a : AssemblyState}

theorem of_stats (m : Manifest) (age : UInt64) :
    AssemblyState.Of ⟨id, m.stats.chunksTotal, m.stats.chunksReceived, m.stats.hasName, age⟩ m :=
  ⟨rfl, m.chunksReceived_stats, by simp [Manifest.stats]⟩

/-- **An assembly says what its sidecar does.** -/
theorem assembly_some (h : d.Regular crc) (ha : assembly crc d age id = some a) :
    a.fileId = id ∧ ∃ m, d.sidecar crc id = some m ∧ a.Of m := by
  unfold assembly at ha
  split at ha
  · rename_i s hs
    cases ha
    obtain ⟨m, hm, rfl⟩ := h.stats hs
    exact ⟨rfl, m, hm, of_stats m _⟩
  · cases ha

/-- A sidecar that is there is shown. -/
theorem exists_assembly (h : d.Regular crc) (hs : d.get (.manifest id) ≠ none) : ∃ a, assembly crc d age id = some a := by
  obtain ⟨m, -, hm⟩ := h.readable.sidecar hs
  rw [assembly, Disk.exec_stats hm]
  exact ⟨_, rfl⟩

end ReceiverControl

namespace ReceiverStep

variable {crc : Bytes → UInt32} {finals : Path} {sameFs : Bool} {es : List ReceiverStep}

theorem regular_moment (hes : ∀ e ∈ es, e.Received crc) (k : Nat) : (moment crc finals sameFs es k).Regular crc :=
  regular_run _ (regular_fresh crc finals sameFs) (fun e he => hes e (List.mem_of_mem_take he))

theorem moment_succ (k : Nat) : moment crc finals sameFs es (k + 1) =
    match es[k]? with
    | some e => apply crc finals (moment crc finals sameFs es k) e
    | none   => moment crc finals sameFs es k := by
  unfold moment run
  rw [List.take_add_one, List.foldl_append]
  cases es[k]? <;> rfl

/-- A step leaves of a sidecar what it said, unless it takes the sidecar away. -/
theorem grows_apply {d : Disk} (h : d.Regular crc) {e : ReceiverStep} (he : e.Received crc) {id : FileId} {m : Manifest}
    (hm : d.sidecar crc id = some m) (hthere : (apply crc finals d e).get (.manifest id) ≠ none) :
    ∃ m', (apply crc finals d e).sidecar crc id = some m' ∧ m.Grows m' := by
  have hsame : (apply crc finals d e).get (.manifest id) = d.get (.manifest id) →
      ∃ m', (apply crc finals d e).sidecar crc id = some m' ∧ m.Grows m' := by
    intro heq
    refine ⟨m, ?_, .refl m⟩
    unfold Disk.sidecar at hm ⊢
    rw [heq, hm]
  cases e with
  | ingest pkt =>
    have hing := Reassembler.ingested_ingest h he.length_lt
    by_cases hid : id = pkt.fileId
    · rw [hid] at hm ⊢
      exact hing.grows m hm
    · exact hsame (hing.frame.get (.manifest id) hid)
  | finalize j =>
    rcases Reassembler.finalize_holding crc finals j d with hall | ⟨hgone, -, hother⟩
    · exact hsame (hall _)
    · by_cases hj : id = j
      · rw [hj] at hthere
        exact absurd hgone hthere
      · exact hsame (hother (.manifest id) hj)

/-- **While a sidecar is there, it only comes to say more.** -/
theorem grows_moment (hes : ∀ e ∈ es, e.Received crc) {id : FileId} {k : Nat} {m : Manifest}
    (hm : (moment crc finals sameFs es k).sidecar crc id = some m) : ∀ n : Nat,
    (∀ j, k ≤ j → j ≤ k + n → (moment crc finals sameFs es j).get (.manifest id) ≠ none) →
    ∃ m', (moment crc finals sameFs es (k + n)).sidecar crc id = some m' ∧ m.Grows m'
  | 0, _          => ⟨m, hm, .refl m⟩
  | n + 1, hthere => by
    obtain ⟨m', hm', hg⟩ := grows_moment hes hm n (fun j hj hle => hthere j hj (by omega))
    have hlast := hthere (k + (n + 1)) (by omega) (Nat.le_refl _)
    rw [← Nat.add_assoc, moment_succ] at hlast ⊢
    cases he : es[k + n]? with
    | none => exact ⟨m', hm', hg⟩
    | some e =>
      rw [he] at hlast
      obtain ⟨m'', hm'', hg'⟩ := grows_apply (regular_moment hes _) (hes e (List.mem_of_getElem? he)) hm' hlast
      exact ⟨m'', hm'', hg.trans hg'⟩

end ReceiverStep

/-- An assembly of a status is one of those listed, as its sidecar was when it was opened. -/
theorem Poll.shown {crc : Bytes → UInt32} {finals : Path} {sameFs : Bool} {es : List ReceiverStep}
    (hes : ∀ e ∈ es, e.Received crc) {p : Poll} {a : AssemblyState} (ha : a ∈ p.assemblies crc finals sameFs es) :
    a.fileId ∈ Reassembler.listInFlight p.names ∧
      ∃ m, (ReceiverStep.moment crc finals sameFs es (p.openedAt a.fileId)).sidecar crc a.fileId = some m ∧ a.Of m := by
  obtain ⟨id, hid, hsome⟩ := List.mem_filterMap.1 ha
  obtain ⟨rfl, hm⟩ := ReceiverControl.assembly_some (ReceiverStep.regular_moment hes _) hsome
  exact ⟨hid, hm⟩

/-- What is listed, and is still there when it is to be opened, is shown. -/
theorem Poll.exists_shown {crc : Bytes → UInt32} {finals : Path} {sameFs : Bool} {es : List ReceiverStep}
    (hes : ∀ e ∈ es, e.Received crc) {p : Poll} (hp : p.Listed crc finals sameFs es) {id : FileId}
    (hlisted : (ReceiverStep.moment crc finals sameFs es p.listedAt).get (.manifest id) ≠ none)
    (hopened : (ReceiverStep.moment crc finals sameFs es (p.openedAt id)).get (.manifest id) ≠ none) :
    ∃ a ∈ p.assemblies crc finals sameFs es, a.fileId = id := by
  have hreg := @ReceiverStep.regular_moment crc finals sameFs es hes (p.openedAt id)
  obtain ⟨a, ha⟩ := @ReceiverControl.exists_assembly crc _ (p.ages id) id hreg hopened
  have hid : id ∈ Reassembler.listInFlight p.names := by
    rw [Reassembler.listInFlight_eq hp]
    exact Reassembler.mem_inFlight.2 hlisted
  exact ⟨a, List.mem_filterMap.2 ⟨id, hid, ha⟩, (ReceiverControl.assembly_some hreg ha).1⟩

/-- **What a status says is so.**  Whatever packets come in and whatever is finalised while it is made, a status lists
assemblies by ascending ids, each once; each is listed as its sidecar was when it was opened, with as many chunks received
as there were marks; and those left out of it are those whose sidecar was not there at the listing, or no longer when it
was to be opened. -/
theorem status_true (crc : Bytes → UInt32) (finals : Path) (sameFs : Bool) (texts : ForeignTexts) (bind : String)
    (es : List ReceiverStep) (hes : ∀ e ∈ es, e.Received crc) (p : Poll) (hp : p.Listed crc finals sameFs es) :
    ReceiverControl.handle crc texts bind (.ok p.names)
      (fun id => ReceiverStep.moment crc finals sameFs es (p.openedAt id)) p.ages .receiverStatus =
      .receiverStatus ⟨bind, p.assemblies crc finals sameFs es⟩ ∧
    (p.assemblies crc finals sameFs es).Pairwise (fun a b => a.fileId.toInt < b.fileId.toInt) ∧
    (∀ a ∈ p.assemblies crc finals sameFs es, ∃ m,
      (ReceiverStep.moment crc finals sameFs es (p.openedAt a.fileId)).sidecar crc a.fileId = some m ∧ a.Of m) ∧
    ∀ id, (∃ a ∈ p.assemblies crc finals sameFs es, a.fileId = id) ↔
      (ReceiverStep.moment crc finals sameFs es p.listedAt).get (.manifest id) ≠ none ∧
      (ReceiverStep.moment crc finals sameFs es (p.openedAt id)).get (.manifest id) ≠ none := by
  have hreg := fun k => @ReceiverStep.regular_moment crc finals sameFs es hes k
  have hids := Reassembler.listInFlight_eq hp
  refine ⟨rfl, ?_, fun a ha => (Poll.shown hes ha).2, fun id => ⟨?_, ?_⟩⟩
  · have hlt : (Reassembler.listInFlight p.names).Pairwise (fun i j => i.toInt < j.toInt) := by
      rw [hids]
      refine ((Finset.pairwise_sort _ FileId.le).and (Reassembler.nodup_inFlight _)).imp (fun hij => ?_)
      exact Int.lt_iff_le_and_ne.2 ⟨hij.1, fun h => hij.2 (Int64.toInt_inj.1 h)⟩
    refine List.pairwise_filterMap.2 (hlt.imp (fun hij a ha b hb => ?_))
    rw [(ReceiverControl.assembly_some (hreg _) ha).1, (ReceiverControl.assembly_some (hreg _) hb).1]
    exact hij
  · rintro ⟨a, ha, rfl⟩
    obtain ⟨hid, m, hm, -⟩ := Poll.shown hes ha
    obtain ⟨buf, hbuf, -⟩ := Disk.sidecar_some hm
    rw [hids] at hid
    exact ⟨Reassembler.mem_inFlight.1 hid, by simp [hbuf]⟩
  · rintro ⟨hlisted, hopened⟩
    exact Poll.exists_shown hes hp hlisted hopened

theorem Disk.mem_keys {d : Disk} {f : HoldingFile} : f ∈ d.holding.keys ↔ d.get f ≠ none := by
  rw [Finmap.mem_keys]
  exact Finmap.lookup_eq_none.not_left.symm

namespace Poll

/-- A name and a chunk of one file, and the directory listed between them. -/
def sample : Poll := ⟨1, fun _ => 2, fun _ => by decide, ["1.parmanifest".toList], fun _ => none⟩

def sampleSteps : List ReceiverStep :=
  [.ingest ⟨.manifest, .empty, 1, 0, 2, [0x61]⟩, .ingest ⟨.data, .empty, 1, 0, 2, [1, 2]⟩]

theorem received_sampleSteps : ∀ e ∈ sampleSteps, e.Received crc32 := by
  intro e he
  simp only [sampleSteps, List.mem_cons, List.not_mem_nil, or_false] at he
  rcases he with rfl | rfl <;> exact Packet.received_of (by decide)

theorem listed_sample : sample.Listed crc32 [] true sampleSteps := by
  have hkeys : (ReceiverStep.moment crc32 [] true sampleSteps 1).holding.keys = {.manifest 1} := by decide +kernel
  refine ⟨[.manifest 1], [], .of_eq (by decide), by simp, fun f => ?_, by simp⟩
  rw [List.mem_singleton, ← Finset.mem_singleton, ← hkeys]
  exact Disk.mem_keys

end Poll

/-- The chunk is counted, since the sidecar is opened after it came. -/
theorem status_true_chunk_between : ∃ a ∈ Poll.sample.assemblies crc32 [] true Poll.sampleSteps,
    a.fileId = 1 ∧ a.chunksTotal = 2 ∧ a.chunksReceived.toNat = 1 ∧ a.hasName = true := by
  obtain ⟨-, -, hof, hmem⟩ := status_true crc32 [] true ⟨fun _ => "", "", "", fun _ => ""⟩ "" Poll.sampleSteps
    Poll.received_sampleSteps Poll.sample Poll.listed_sample
  obtain ⟨a, ha, hid⟩ := (hmem 1).2 ⟨by decide +kernel, by decide +kernel⟩
  obtain ⟨m, hm, htells⟩ := hof a ha
  have hm₂ : (ReceiverStep.moment crc32 [] true Poll.sampleSteps 2).sidecar crc32 1 = some ⟨2, 2, 0, ['a'], [1]⟩ := by
    decide +kernel
  rw [hid, show Poll.sample.openedAt 1 = 2 from rfl, hm₂] at hm
  cases hm
  refine ⟨a, ha, hid, htells.total, ?_, htells.hasName.2 (by simp)⟩
  rw [htells.received]
  decide

/-- **Two statuses, one after the other.**  Of an assembly that was not finalised in between, the later one counts as many
chunks, has at least as many of them received, and still has the name. -/
theorem statuses_progress (crc : Bytes → UInt32) (finals : Path) (sameFs : Bool) (es : List ReceiverStep)
    (hes : ∀ e ∈ es, e.Received crc) (p q : Poll) (a b : AssemblyState) (ha : a ∈ p.assemblies crc finals sameFs es)
    (hb : b ∈ q.assemblies crc finals sameFs es) (hid : b.fileId = a.fileId)
    (hpq : p.openedAt a.fileId ≤ q.openedAt a.fileId)
    (hthere : ∀ k, p.openedAt a.fileId ≤ k → k ≤ q.openedAt a.fileId →
      (ReceiverStep.moment crc finals sameFs es k).get (.manifest a.fileId) ≠ none) :
    b.chunksTotal = a.chunksTotal ∧ a.chunksReceived ≤ b.chunksReceived ∧ (a.hasName = true → b.hasName = true) := by
  obtain ⟨-, m, hm, hof⟩ := Poll.shown hes ha
  obtain ⟨-, m₂, hm₂, hof₂⟩ := Poll.shown hes hb
  obtain ⟨n, hn⟩ := Nat.exists_eq_add_of_le hpq
  rw [hn] at hthere
  obtain ⟨m', hm', hg⟩ := ReceiverStep.grows_moment hes hm n hthere
  rw [hid, hn, hm'] at hm₂
  cases hm₂
  refine ⟨by rw [hof₂.total, hof.total, hg.numChunks], ?_, fun h => ?_⟩
  · rw [UInt32.le_iff_toNat_le, hof.received, hof₂.received, hg.numChunks]
    exact Finset.card_le_card (Finset.monotone_filter_right _ (fun i _ hi => hg.has i hi))
  · have hne := hof.hasName.1 h
    exact hof₂.hasName.2 (by rw [hg.name hne]; exact hne)

/-- A status before the chunk, and one after it. -/
theorem statuses_progress_chunk_between :
    ∃ a ∈ { Poll.sample with openedAt := fun _ => 1, later := fun _ => by decide }.assemblies crc32 [] true Poll.sampleSteps,
    ∃ b ∈ Poll.sample.assemblies crc32 [] true Poll.sampleSteps,
      a.fileId = 1 ∧ b.fileId = 1 ∧ a.chunksReceived ≤ b.chunksReceived := by
  have hthere : ∀ k, 1 ≤ k → k ≤ 2 →
      (ReceiverStep.moment crc32 [] true Poll.sampleSteps k).get (.manifest 1) ≠ none := by
    intro k hk hle
    obtain rfl | rfl : k = 1 ∨ k = 2 := by omega
    · decide +kernel
    · decide +kernel
  obtain ⟨a, ha, hid⟩ := Poll.exists_shown (p := { Poll.sample with openedAt := fun _ => 1, later := fun _ => by decide })
    Poll.received_sampleSteps Poll.listed_sample (hthere 1 (by decide) (by decide)) (hthere 1 (by decide) (by decide))
  obtain ⟨b, hb, hid₂⟩ := Poll.exists_shown Poll.received_sampleSteps Poll.listed_sample
    (hthere 1 (by decide) (by decide)) (hthere 2 (by decide) (by decide))
  have hprogress := statuses_progress crc32 [] true Poll.sampleSteps Poll.received_sampleSteps _ _ a b ha hb
    (hid₂.trans hid.symm) (show 1 ≤ 2 by decide) (by rw [hid]; exact hthere)
  exact ⟨a, ha, b, hb, hid, hid₂, hprogress.2.1⟩

end Parachuter
