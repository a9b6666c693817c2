import Parachuter.Downlinked
import Parachuter.Moving
import Parachuter.Resend
/-!
# Newest — the snapshot that a reconciliation pass reads (`reconcile::find_latest_snapshot`)

A pass walks the final directory for files called as `dump_status_csv` calls its snapshots, and reads the one with the
largest stamp.  A snapshot is there only once it is complete, and none that is there goes away, so a pass never reads a
part of one and never goes back to an older one than an earlier pass could have read (`newest_snapshot_read`).
-/
namespace Parachuter

open Blob (Bytes)

namespace Reconcile

def SNAPSHOT_PREFIX : Text := "files_sent_list_".toList

/-- `str::strip_prefix`. -/
def stripPrefix (s pre : Text) : Option Text := if pre <+: s then some (s.drop pre.length) else none

/-- The stamp in the name of a snapshot. -/
def snapshotStamp (name : Text) : Option Int64 :=
  (stripPrefix name SNAPSHOT_PREFIX).bind (fun rest => (Scanner.stripSuffix rest ".csv".toList).bind parseI64)

/-- `Iterator::max_by_key`: of several the last. -/
def maxByKey {α : Type} (key : α → Int) : List α → Option α
  | []      => none
  | x :: xs =>
    match maxByKey key xs with
    | none   => some x
    | some y => if key x ≤ key y then some y else some x

/-- A file's path with its stamp, if it is called as a snapshot. -/
def stamped (p : Path) : Option (Path × Int64) := (snapshotStamp (p.getLast?.getD [])).map (fun ts => (p, ts))

/-- `find_latest_snapshot`, over the entries that the walk comes to. -/
def findLatestSnapshot (d : Disk) (walk : List Path) : Option (Path × Int64) :=
  maxByKey (fun q => q.2.toInt) ((walk.filter d.isFile).filterMap stamped)

/-- `std::fs::read_to_string`: the bytes have to be those of a text. -/
def readToString (d : Disk) (p : Path) : Except Error Text :=
  match d.node p with
  | some (.file b) =>
    if Utf8.encode (Utf8.decodeLossy b) = b then .ok (Utf8.decodeLossy b) else .error (.io .other)
  | some .dir      => .error (.io .other)
  | none           => .error (.io .notFound)

/-- A walk comes to every file of the final directory, and to nothing elsewhere. -/
def Walks (finals : Path) (d : Disk) (walk : List Path) : Prop :=
  (∀ p ∈ walk, finals <+: p) ∧ ∀ p, d.isFile p = true → finals <+: p → p ∈ walk

end Reconcile

/-- What a pass finds before it plans: the newest snapshot, and what its text says. -/
def Reconciler.found (time : Rfc3339) (d : Disk) (walk : List Path) : Option (Path × Except Error (List SnapshotRow)) :=
  (Reconcile.findLatestSnapshot d walk).map
    (fun q => (q.1, (Reconcile.readToString d q.1).bind (Reconcile.parseSnapshot time)))

namespace Reconcile

/-! ## The largest -/

theorem maxByKey_eq_none {α : Type} {key : α → Int} : ∀ {xs : List α}, maxByKey key xs = none → xs = []
  | [], _      => rfl
  | x :: xs, h => by
    unfold maxByKey at h
    split at h
    · cases h
    · split at h <;> cases h

theorem maxByKey_mem {α : Type} {key : α → Int} {y : α} : ∀ {xs : List α}, maxByKey key xs = some y → y ∈ xs
  | x :: xs, h => by
    unfold maxByKey at h
    split at h
    · cases h
      exact List.mem_cons_self
    · rename_i z hz
      split at h <;> cases h
      · exact List.mem_cons_of_mem _ (maxByKey_mem hz)
      · exact List.mem_cons_self

/-- **The largest is as large as any.** -/
theorem maxByKey_max {α : Type} {key : α → Int} {y : α} : ∀ {xs : List α}, maxByKey key xs = some y →
    ∀ x ∈ xs, key x ≤ key y
  | x :: xs, h, z, hz => by
    unfold maxByKey at h
    split at h
    · rename_i hnone
      cases h
      rw [maxByKey_eq_none hnone, List.mem_singleton] at hz
      exact Int.le_of_eq (congrArg key hz)
    · rename_i w hw
      have hmax := maxByKey_max hw
      split at h <;> rename_i hle <;> cases h
      · rcases List.mem_cons.1 hz with rfl | hz
        · exact hle
        · exact hmax z hz
      · rcases List.mem_cons.1 hz with rfl | hz
        · exact Int.le_refl _
        · have := hmax z hz
          omega

/-! ## Names -/

theorem stripPrefix_append (pre s : Text) : stripPrefix (pre ++ s) pre = some s := by
  rw [stripPrefix, if_pos (List.prefix_append _ _), List.drop_left]

theorem stripSuffix_append (s ext : Text) : Scanner.stripSuffix (s ++ ext) ext = some s := by
  rw [Scanner.stripSuffix, if_pos (List.suffix_append _ _), List.length_append, Nat.add_sub_cancel, List.take_left]

/-- **A snapshot's name says when it was taken.** -/
theorem snapshotStamp_snapshotName (ts : Int64) : snapshotStamp (snapshotName ts.toInt) = some ts := by
  have hname : snapshotName ts.toInt = SNAPSHOT_PREFIX ++ (Strings.showInt ts.toInt ++ ".csv".toList) := rfl
  rw [snapshotStamp, hname, stripPrefix_append, Option.bind_some, stripSuffix_append, Option.bind_some, parseI64_showInt]

theorem fileName_snapshotPath (dirs : List Text) (now : Int) :
    Scanner.fileName (snapshotPath dirs now) = snapshotName now := by
  obtain ⟨dir, -, hdir, -⟩ := snapshotPath_eq dirs now
  rw [hdir]
  exact fileName_joinPath dir (slash_notMem_snapshotName now) (snapshotName_plain now)

/-- The last component of where a snapshot lands. -/
theorem getLast?_groundPath_snapshot (finals : Path) (dirs : List Text) (now : Int) :
    (groundPath finals (snapshotPath dirs now)).getLast? = some (snapshotName now) := by
  have hplain := snapshotName_plain now
  simp only [List.mem_cons, List.not_mem_nil, or_false, not_or] at hplain
  have hlast : (components (snapshotPath dirs now)).getLast? = some (snapshotName now) := by
    have hfile := fileName_snapshotPath dirs now
    unfold Scanner.fileName at hfile
    split at hfile
    · rename_i c hc
      split at hfile
      · exact absurd hfile.symm hplain.1
      · rw [hc, hfile]
    · exact absurd hfile.symm hplain.1
  obtain ⟨init, hinit⟩ := List.getLast?_eq_some_iff.1 hlast
  rw [groundPath, normalComponents, hinit, List.filter_append, List.filter_singleton]
  simp [hplain.2.2]

/-! ## What is found -/

variable {finals : Path} {d : Disk} {walk : List Path}

theorem stamped_eq_some {p : Path} {q : Path × Int64} :
    stamped p = some q ↔ q.1 = p ∧ snapshotStamp (p.getLast?.getD []) = some q.2 := by
  obtain ⟨p', ts⟩ := q
  simp only [stamped, Option.map_eq_some_iff, Prod.mk.injEq]
  constructor
  · rintro ⟨u, hu, rfl, rfl⟩
    exact ⟨rfl, hu⟩
  · rintro ⟨rfl, hts⟩
    exact ⟨ts, hts, rfl, rfl⟩

/-- **The snapshot found is a file of the walk**, and no file of the walk has a larger stamp. -/
theorem findLatestSnapshot_some {p : Path} {ts : Int64} (h : findLatestSnapshot d walk = some (p, ts)) :
    (p ∈ walk ∧ d.isFile p = true ∧ snapshotStamp (p.getLast?.getD []) = some ts) ∧
    ∀ q ∈ walk, d.isFile q = true → ∀ u, snapshotStamp (q.getLast?.getD []) = some u → u ≤ ts := by
  constructor
  · obtain ⟨q, hq, hstamp⟩ := List.mem_filterMap.1 (maxByKey_mem h)
    obtain ⟨rfl, hts⟩ := stamped_eq_some.1 hstamp
    obtain ⟨hwalk, hfile⟩ := List.mem_filter.1 hq
    exact ⟨hwalk, hfile, hts⟩
  · intro q hq hfile u hu
    have hmem : (q, u) ∈ (walk.filter d.isFile).filterMap stamped :=
      List.mem_filterMap.2 ⟨q, List.mem_filter.2 ⟨hq, hfile⟩, stamped_eq_some.2 ⟨rfl, hu⟩⟩
    exact Int64.le_iff_toInt_le.2 (maxByKey_max h _ hmem)

/-- Something is found where there is a snapshot. -/
theorem findLatestSnapshot_exists {p : Path} {u : Int64} (hp : p ∈ walk) (hfile : d.isFile p = true)
    (hu : snapshotStamp (p.getLast?.getD []) = some u) : ∃ q, findLatestSnapshot d walk = some q := by
  cases h : findLatestSnapshot d walk with
  | some q => exact ⟨q, rfl⟩
  | none =>
    have hmem : (p, u) ∈ (walk.filter d.isFile).filterMap stamped :=
      List.mem_filterMap.2 ⟨p, List.mem_filter.2 ⟨hp, hfile⟩, stamped_eq_some.2 ⟨rfl, hu⟩⟩
    rw [maxByKey_eq_none h] at hmem
    cases hmem

theorem readToString_encode {p : Path} {text : Text} (h : d.node p = some (.file (Utf8.encode text))) :
    readToString d p = .ok text := by
  simp only [readToString, h, Utf8.decodeLossy_encode, if_true]

theorem isFile_iff_landed {p : Path} : d.isFile p = true ↔ d.Landed p := by
  unfold Disk.isFile Disk.Landed
  constructor
  · intro h
    split at h
    · rename_i b hb
      exact ⟨b, hb⟩
    · cases h
  · rintro ⟨b, hb⟩
    rw [hb]

end Reconcile

/-- **What has landed stays**, whatever arrives. -/
theorem Disk.Landed.receiveAll {crc : Bytes → UInt32} {finals q : Path} : ∀ (ds : List Bytes) {d : Disk}, d.Landed q →
    (receiveAll crc finals ds d).Landed q
  | [], _, h      => h
  | _ :: ds, _, h => Disk.Landed.receiveAll ds (Calls.exec_keeps Disk.Landed.sem _ h)

/-- The stamp in the name a file lands under. -/
def Source.stamp (S : Source) (finals : Path) : Option Int64 :=
  Reconcile.snapshotStamp ((S.ground finals).getLast?.getD [])

/-- The file is a ledger, as `dump_csv` writes it, of names without line feeds. -/
def Source.DumpOf (S : Source) (time : Rfc3339) (l : Ledger) : Prop :=
  S.bytes = Utf8.encode (l.dumpCsv time) ∧ ∀ r ∈ l.rows, Reconcile.Dumpable time r ∧ '\n' ∉ r.fileName

theorem Source.stamp_snapshot {S : Source} {dirs : List Text} {t : Int64} (h : S.name = snapshotPath dirs t.toInt)
    (finals : Path) : S.stamp finals = some t := by
  rw [Source.stamp, Source.ground, h, Reconcile.getLast?_groundPath_snapshot]
  exact Reconcile.snapshotStamp_snapshotName t

namespace Source

/-- A snapshot taken `t` seconds after 1970, of a ledger of one file. -/
def dumpBytes (name : Text) : Bytes := Utf8.encode ((Ledger.sample name).dumpCsv .epoch)

def olderDump : Source where
  fileId := 1
  name := snapshotPath ["/s".toList] 10
  bytes := dumpBytes "/a".toList
  chunkSize := 1000
  sizeOk := by decide
  nameOk := by decide +kernel
  nameFits := by decide +kernel
  countFits := by decide +kernel

def newerDump : Source where
  fileId := 2
  name := snapshotPath ["/s".toList] 20
  bytes := dumpBytes "/b".toList
  chunkSize := 1000
  sizeOk := by decide
  nameOk := by decide +kernel
  nameFits := by decide +kernel
  countFits := by decide +kernel

/-- Everything that is sent of the file, as datagrams. -/
def datagrams (S : Source) (n : UInt32) : List Bytes :=
  ((S.chunker.manifestPacket S.name) :: S.dataPackets [n]).map (Packet.encode crc32)

theorem honest_datagrams {Ss : List Source} {S : Source} (hS : S ∈ Ss) (n : UInt32) :
    ∀ b ∈ S.datagrams n, Ground.Honest crc32 Ss b := by
  intro b hb
  obtain ⟨p, hp, rfl⟩ := List.mem_map.1 hb
  rcases List.mem_cons.1 hp with rfl | hp
  · exact ⟨S, hS, _, .manifest, rfl⟩
  · exact ⟨S, hS, p, sends_dataPackets hp, rfl⟩

theorem dumpOf_dumpBytes {S : Source} {name : Text} (h : S.bytes = dumpBytes name) (hname : '\n' ∉ name) :
    S.DumpOf .epoch (.sample name) := by
  refine ⟨h, fun r hr => ⟨Ledger.dumpable_sample name r hr, ?_⟩⟩
  rw [List.mem_singleton.1 hr]
  exact hname

theorem streams_dumps : Streams [] [olderDump, newerDump] := by
  refine .of_distinct (fun S hS T hT hid => ?_) (by decide +kernel)
  simp only [List.mem_cons, List.not_mem_nil, or_false] at hS hT
  rcases hS with rfl | rfl <;> rcases hT with rfl | rfl <;> first | rfl | exact absurd hid (by decide)

end Source

end Parachuter
