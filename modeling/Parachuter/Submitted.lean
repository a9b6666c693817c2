import Parachuter.Operations
import Parachuter.Snapshot
/-!
# Submitted — what the ledger says of a file after it is submitted

A path that is in the ledger keeps its row: `upsert_file` gives back the id, and the size stays the one it was first
registered with.  No operation changes the size of a row afterwards, so what is said of a row right after a submit holds
of it in every later state of the sender.
-/
namespace Parachuter

open Blob (Bytes)

/-! ## Rows keep their size -/

/-- Every row is still there, under its id, with its name and its size. -/
def Ledger.KeepsRows (l l' : Ledger) : Prop :=
  ∀ id r, l.get id = some r → ∃ r', l'.get id = some r' ∧ r'.fileName = r.fileName ∧ r'.fileSize = r.fileSize

namespace Ledger.KeepsRows

theorem refl (l : Ledger) : l.KeepsRows l := fun _ r h => ⟨r, h, rfl, rfl⟩

theorem trans {l l' l'' : Ledger} (h : l.KeepsRows l') (h' : l'.KeepsRows l'') : l.KeepsRows l'' := by
  intro id r hr
  obtain ⟨r', hr', hname, hsize⟩ := h id r hr
  obtain ⟨r'', hr'', hname', hsize'⟩ := h' id r' hr'
  exact ⟨r'', hr'', hname'.trans hname, hsize'.trans hsize⟩

theorem markGone (l : Ledger) (name : Text) : l.KeepsRows (l.markGone name) := by
  intro id r hr
  unfold Ledger.markGone
  rw [Ledger.get_update, hr, Option.map_some]
  refine ⟨_, rfl, ?_⟩
  split
  · exact ⟨rfl, rfl⟩
  · exact ⟨rfl, rfl⟩

theorem markQueued (l : Ledger) (fileId : FileId) (when : DateTime) : l.KeepsRows (l.markQueued fileId when) :=
  fun _ _ hr => Ledger.get_markQueued hr fileId when

theorem upsertFile {l l' : Ledger} {name : Text} {size : UInt64} {created : DateTime} {ipd ipf ipb chunkSize : UInt32}
    {id : FileId} (h : l.upsertFile name size created ipd ipf ipb chunkSize = .ok (id, l')) : l.KeepsRows l' := by
  unfold Ledger.upsertFile at h
  split at h
  · cases h
    exact .refl l
  · split at h
    · cases h
      exact fun _ r hr => ⟨r, Ledger.get_insert_of_some hr, rfl, rfl⟩
    · cases h

end Ledger.KeepsRows

namespace SenderRuntime

open Ledger (KeepsRows)

theorem keepsRows_registerAndPush (rt : SenderRuntime) (name : Text) (size : UInt64) (created : DateTime)
    (interrupt : Bool) (utc : DateTime) :
    rt.ledger.KeepsRows (rt.registerAndPush name size created interrupt utc).2.ledger := by
  unfold registerAndPush
  dsimp only
  split
  · exact .refl _
  · rename_i id ledger hup
    exact (KeepsRows.upsertFile hup).trans (.markQueued ledger id utc)

theorem keepsRows_sendNext (crc : Bytes → UInt32) (payload : Payload) (rt : SenderRuntime) :
    rt.ledger.KeepsRows (rt.sendNext crc payload).rt.ledger := by
  obtain ⟨ledger, queue, rateLimiter, heq, rfl | ⟨name, rfl⟩⟩ := sendNext_leaves crc payload rt
  · rw [heq]
    exact .refl _
  · rw [heq]
    exact .markGone _ _

/-- **No operation changes the name or the size of a row.** -/
theorem keepsRows_apply (crc : Bytes → UInt32) (rt : SenderRuntime) (op : SenderOp) :
    rt.ledger.KeepsRows (op.apply crc rt).ledger := by
  cases op with
  | submit metadata cwd path interrupt utc =>
    simp only [SenderOp.apply, submit]
    split
    · exact .refl _
    · exact .refl _
    · split
      · exact .refl _
      · exact keepsRows_registerAndPush _ _ _ _ _ _
  | enqueue fileId start count interrupt utc =>
    simp only [SenderOp.apply, enqueue]
    split
    · exact .refl _
    · split
      · exact .markQueued _ _ _
      · split
        · exact .refl _
        · exact .refl _
  | resendName fileId =>
    simp only [SenderOp.apply, resendName]
    split
    · exact .refl _
    · exact .refl _
  | scanForWork view utc =>
    simp only [SenderOp.apply, scanForWork]
    split
    · exact .refl _
    · exact .refl _
    · rename_i c _
      have hreg := keepsRows_registerAndPush rt c.path c.size c.createdAt false utc
      split <;> (rename_i heq; rw [heq] at hreg; exact hreg)
  | applyOverride o =>
    simp only [SenderOp.apply, applyOverride]
    split
    · exact .refl _
    · split
      · exact .refl _
      · exact .refl _
  | setState new => cases new <;> exact .refl _
  | flush => exact .refl _
  | sendNext payload => exact keepsRows_sendNext crc payload rt
  | reload cfg => exact .refl _
  | stamp lastRecheck lastStatusDump => exact .refl _

theorem keepsRows_run (crc : Bytes → UInt32) : ∀ (ops : List SenderOp) (rt : SenderRuntime),
    rt.ledger.KeepsRows (SenderOp.run crc rt ops).ledger
  | [], _         => .refl _
  | op :: ops, rt => (keepsRows_apply crc rt op).trans (keepsRows_run crc ops (op.apply crc rt))

/-! ## What a submit leaves -/

/-- What a submit that is accepted has registered, and under which id. -/
theorem submit_ok {rt rt' : SenderRuntime} {metadata : Text → Except IoError FileMeta} {cwd : Option Text} {path : Text}
    {interrupt : Bool} {utc : DateTime} {ack : SubmitAck}
    (h : rt.submit metadata cwd path interrupt utc = (.ok ack, rt')) :
    ack.numChunks = rt.totalFor ack.fileSize ∧
    ∃ row, rt'.ledger.get ack.fileId = some row ∧ row.fileName = absolute cwd path ∧
      (rt.ledger.getByName (absolute cwd path) = none → row.fileSize = ack.fileSize ∧ row.stillExists = true) ∧
      ∀ old, rt.ledger.getByName (absolute cwd path) = some old → ack.fileId = old.fileId ∧ row.fileSize = old.fileSize := by
  unfold submit at h
  split at h
  · cases h
  · cases h
  rename_i info _
  split at h
  · cases h
  unfold registerAndPush at h
  dsimp only at h
  split at h
  · cases h
  rename_i id ledger hup
  cases h
  refine ⟨rfl, ?_⟩
  have hrow : ∃ row, ledger.get id = some row ∧ row.fileName = absolute cwd path ∧
      (rt.ledger.getByName (absolute cwd path) = none → row.fileSize = info.len ∧ row.stillExists = true) ∧
      ∀ old, rt.ledger.getByName (absolute cwd path) = some old → id = old.fileId ∧ row.fileSize = old.fileSize := by
    unfold Ledger.upsertFile at hup
    split at hup
    · rename_i old hold
      cases hup
      have hname := List.find?_some hold
      refine ⟨old, Ledger.get_of_mem (List.mem_of_find?_eq_some hold), of_decide_eq_true hname, fun hnone => ?_,
        fun old' hold' => ?_⟩
      · rw [hold] at hnone
        cases hnone
      · rw [hold] at hold'
        cases hold'
        exact ⟨rfl, rfl⟩
    · rename_i hnone
      split at hup
      · cases hup
        refine ⟨_, Ledger.get_insert_self _ _ _ _, rfl, fun _ => ⟨rfl, rfl⟩, fun old hold => ?_⟩
        rw [hnone] at hold
        cases hold
      · cases hup
  obtain ⟨row, hget, hname, hnew, hold⟩ := hrow
  -- queueing it stamps the row and leaves the rest
  refine ⟨_, (by
    show (ledger.markQueued id utc).get id = _
    unfold Ledger.markQueued
    rw [Ledger.get_update, hget, Option.map_some]), ?_⟩
  rw [if_pos (Ledger.mem_of_get hget).2]
  exact ⟨hname, hnew, hold⟩

/-- **A range of a file is taken** when it starts within the row's size. -/
theorem enqueue_accepted {rt : SenderRuntime} {id : FileId} {row : FileRecord} (h : rt.ledger.get id = some row)
    {start : Int32} (hpos : ¬ start < 0) (hlt : start.toUInt32 < rt.totalFor row.fileSize) (count : UInt32)
    (interrupt : Bool) (utc : DateTime) : (rt.enqueue id start count interrupt utc).1 = .ok () := by
  have hno : ¬ chunksForSize row.fileSize.toNat (rt.currentChunkSize - HEADER_LEN) ≤ start.toUInt32 := UInt32.not_le.2 hlt
  unfold enqueue
  rw [h]
  dsimp only
  rw [if_neg hpos, if_neg hno]

end SenderRuntime

theorem Reconcile.classify_landed {row : SnapshotRow} {finals : Path} {d : Disk} {b : Bytes}
    (h : d.node (groundPath finals row.fileName) = some (.file b)) (ground : GroundState) (now : DateTime)
    (graceSecs : UInt64) : classify row finals d ground now graceSecs =
      if row.fileSize = UInt64.ofNat b.length then .complete else .sizeMismatch row.fileSize (UInt64.ofNat b.length) := by
  unfold classify
  rw [h]
  dsimp only
  simp only [eq_comm]

/-- **After a submit the row is the path's, with the size the path was first registered with.**  Where that is the size
submitted, every range of the file is taken in every later state at the same chunk size, and the file, once it has landed,
is called complete; where it is not, it is called a mismatch of the two sizes. -/
theorem submit_row_first_registered (crc : Bytes → UInt32) (rt rt' : SenderRuntime)
    (metadata : Text → Except IoError FileMeta) (cwd : Option Text) (path : Text) (interrupt : Bool) (utc : DateTime)
    (ack : SubmitAck) (h : rt.submit metadata cwd path interrupt utc = (.ok ack, rt')) :
    ∃ row, rt'.ledger.get ack.fileId = some row ∧ row.fileName = SenderRuntime.absolute cwd path ∧
      (rt.ledger.getByName row.fileName = none → row.fileSize = ack.fileSize ∧ row.stillExists = true) ∧
      (∀ old, rt.ledger.getByName row.fileName = some old → ack.fileId = old.fileId ∧ row.fileSize = old.fileSize) ∧
      ∀ ops : List SenderOp, let later := SenderOp.run crc rt' ops
        (row.fileSize = ack.fileSize → later.currentChunkSize = rt.currentChunkSize →
          ∀ (i : Int32) (count : UInt32) (front : Bool) (when : DateTime), ¬ i < 0 → i.toUInt32 < ack.numChunks →
            (later.enqueue ack.fileId i count front when).1 = .ok ()) ∧
        ∀ r, later.ledger.get ack.fileId = some r → ∀ (finals : Path) (d : Disk) (b : Bytes) (ground : GroundState)
          (now : DateTime) (graceSecs : UInt64), d.node (groundPath finals row.fileName) = some (.file b) →
          UInt64.ofNat b.length = ack.fileSize → Reconcile.classify r.snapshotRow finals d ground now graceSecs =
            if row.fileSize = ack.fileSize then .complete else .sizeMismatch row.fileSize ack.fileSize := by
  obtain ⟨hnum, row, hrow, hname, hnew, hold⟩ := SenderRuntime.submit_ok h
  rw [← hname] at hnew hold
  refine ⟨row, hrow, hname, hnew, hold, fun ops => ⟨fun hsize hchunk i count front when hpos hlt => ?_, ?_⟩⟩
  · obtain ⟨r, hr, -, hrsize⟩ := SenderRuntime.keepsRows_run crc ops rt' _ _ hrow
    refine SenderRuntime.enqueue_accepted hr hpos ?_ count front when
    rw [hrsize, hsize, SenderRuntime.totalFor, hchunk]
    rw [hnum] at hlt
    exact hlt
  · intro r hr finals d b ground now graceSecs hlanded hlen
    obtain ⟨r', hr', hrname, hrsize⟩ := SenderRuntime.keepsRows_run crc ops rt' _ _ hrow
    rw [hr] at hr'
    cases hr'
    rw [← hrname] at hlanded
    rw [@Reconcile.classify_landed r.snapshotRow finals d b hlanded, hlen, ← hrsize]
    rfl

/-- A new file of forty bytes: once forty bytes have landed under its name, it is complete. -/
theorem submit_row_first_registered_new :
    let out := Forty.start.submit (fun _ => .ok ⟨true, 40, 0⟩) none "/a".toList false 0
    let d := (Disk.fresh [] true).putFile (groundPath [] "/a".toList) (List.replicate 40 0)
    out.1 = .ok ⟨1, 1, 40⟩ ∧ ∃ row, out.2.ledger.get 1 = some row ∧
      (out.2.enqueue 1 0 1 true 0).1 = .ok () ∧
      Reconcile.classify row.snapshotRow [] d ⟨[], none⟩ 0 0 = .complete := by
  intro out d
  have hack : out.1 = .ok ⟨1, 1, 40⟩ := by decide +kernel
  obtain ⟨row, hrow, hname, hnew, -, hlater⟩ := submit_row_first_registered crc32 Forty.start out.2
    (fun _ => .ok ⟨true, 40, 0⟩) none "/a".toList false 0 ⟨1, 1, 40⟩ (Prod.ext hack rfl)
  have hsize := (hnew rfl).1
  obtain ⟨haccept, hclass⟩ := hlater []
  have hlanded : d.node (groundPath [] row.fileName) = some (.file (List.replicate 40 0)) := by
    rw [hname]
    exact Disk.node_putFile_self _ _ _
  refine ⟨hack, row, hrow, haccept hsize rfl 0 1 true 0 (by decide) (by decide), ?_⟩
  rw [hclass row hrow [] d (List.replicate 40 0) ⟨[], none⟩ 0 0 hlanded (by decide), if_pos hsize]

/-- **A file that grew from 40 to 100000 bytes between two submits**: the row keeps the forty, and the last chunk of the
file submitted may not be asked for. -/
theorem submit_row_not_updated :
    let first := (Forty.start.submit (fun _ => .ok ⟨true, 40, 0⟩) none "/a".toList false 0).2
    let out := first.submit (fun _ => .ok ⟨true, 100000, 0⟩) none "/a".toList false 0
    out.1 = .ok ⟨1, 7, 100000⟩ ∧ (out.2.ledger.get 1).map (·.fileSize) = some 40 ∧
    (out.2.enqueue 1 6 1 true 0).1 = .error (.outOfRange 6 1) := by
  decide +kernel

end Parachuter
