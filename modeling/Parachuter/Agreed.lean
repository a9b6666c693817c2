import Parachuter.Overlap
/-!
# Agreed — a gap as the cleaner asks for it and as the sender queues it (`run_pass`, `enqueue`, `control/messages.rs`)

The index of a gap is a `u32` on the ground, an `i32` in the request, and a `u32` again at the sender, to whom a negative
one asks for the whole file.  So the sender queues the gap it was asked for exactly while the gap starts in the lower half
of the indices (`handle_range`).
-/
namespace Parachuter

open Blob (Bytes)

namespace Cleaner

variable {crc : Bytes → UInt32} {listed : Disk} {atName atGaps : FileId → Disk}

/-- **A request for a range is for a gap** of the sidecar it was read from. -/
theorem gap_of_planned {p : Planned} (hp : p ∈ planning crc listed atName atGaps) (hkind : p.kind = .retransmit)
    {m : Manifest} (hm : (atGaps p.fileId).sidecar crc p.fileId = some m) :
    (p.range.start, p.range.count) ∈ m.missingRanges := by
  obtain ⟨id, -, hp⟩ := List.mem_flatMap.1 hp
  rcases List.mem_append.1 hp with hp | hp
  · unfold planName at hp
    split at hp
    · cases hp
    · rw [List.mem_singleton.1 hp] at hkind
      cases hkind
  · obtain rfl := planGaps_fileId hp
    rw [exec_missingRanges hm] at hp
    obtain ⟨r, hr, he⟩ := List.mem_map.1 hp
    rw [← he]
    exact hr

end Cleaner

/-- **When a request means the same gap on both sides**: exactly when the gap starts below chunk `2 ^ 31`.  The sidecar is the
one the planner read, and the sender counts as many chunks for the file as it does. -/
theorem retransmit_means_same_range_iff (crc : Bytes → UInt32) (listed : Disk) (atName atGaps : FileId → Disk) (p : Planned)
    (m : Manifest) (rt : SenderRuntime) (row : FileRecord) (utc : DateTime)
    (hp : p ∈ Cleaner.planning crc listed atName atGaps) (hkind : p.kind = .retransmit)
    (hm : (atGaps p.fileId).sidecar crc p.fileId = some m) (hrow : rt.ledger.get p.fileId = some row)
    (hcount : rt.totalFor row.fileSize = m.numChunks) :
    ((rt.handle utc p.request).1 = .ok ∧
      (rt.handle utc p.request).2.queue.items = .retransmit p.fileId p.range :: rt.queue.items) ↔
      p.range.start.toNat < 2 ^ 31 := by
  have hgap := Cleaner.gap_of_planned hp hkind hm
  have hreq : p.request = .enqueue p.fileId p.range.start.toInt32 p.range.count true := by
    unfold Planned.request
    rw [hkind]
  obtain ⟨hpos, hend⟩ := Manifest.missingRanges_bounds hgap
  rw [hreq, SenderRuntime.handle_range hrow hcount hpos hend utc]
  refine ⟨fun h => ?_, fun hfar => ?_⟩
  · by_contra hfar
    rw [if_neg hfar] at h
    -- the whole file is its manifest and its data
    cases List.head_eq_of_cons_eq h.2
  · rw [if_pos hfar]
    exact ⟨rfl, rfl⟩

/-! ## A gap in the upper half -/

namespace Far

/-- All chunks but the last, of one more than a multiple of eight. -/
def manifest (n : Nat) : Manifest := ⟨16160, UInt32.ofNat (8 * n + 1), 0, ['f'], List.replicate n 0xff ++ [0]⟩

theorem numChunks_manifest {n : Nat} (hn : 8 * n + 1 < 2 ^ 32) : (manifest n).numChunks.toNat = 8 * n + 1 :=
  UInt32.toNat_ofNat_of_lt' hn

theorem has_manifest (n : Nat) {i : Nat} (hi : i < 8 * n) : (manifest n).has i = true := by
  have hbyte : (List.replicate n (0xff : UInt8) ++ [0]).getD (i / 8) 0 = 0xff := by
    rw [List.getD_eq_getElem?_getD, List.getElem?_append_left (by rw [List.length_replicate]; omega),
      List.getElem?_replicate_of_lt (by omega)]
    rfl
  show Bitmap.getBit (List.replicate n 0xff ++ [0]) i = true
  rw [Bitmap.getBit_eq, hbyte]
  exact (Bitmap.eq_ff_iff 0xff).1 rfl _ (Nat.mod_lt _ (by decide))

theorem lacks_manifest (n : Nat) : (manifest n).has (8 * n) = false := by
  have hbyte : (List.replicate n (0xff : UInt8) ++ [0]).getD (8 * n / 8) 0 = 0 := by
    rw [Nat.mul_div_cancel_left n (by decide), List.getD_eq_getElem?_getD,
      List.getElem?_append_right (by rw [List.length_replicate]), List.length_replicate, Nat.sub_self]
    rfl
  show Bitmap.getBit (List.replicate n 0xff ++ [0]) (8 * n) = false
  rw [Bitmap.getBit_eq, hbyte]
  exact Nat.zero_testBit _

theorem gap_manifest {n : Nat} (hn : 8 * n + 1 < 2 ^ 32) : (UInt32.ofNat (8 * n), 1) ∈ (manifest n).missingRanges := by
  have hstart : (UInt32.ofNat (8 * n)).toNat = 8 * n := UInt32.toNat_ofNat_of_lt' (Nat.lt_of_succ_lt hn)
  have hcount := numChunks_manifest hn
  rw [← List.mem_map_of_injective Manifest.rangeNat_injective, (manifest n).isRuns_missingRanges.mem_iff]
  have hrange : Manifest.rangeNat (UInt32.ofNat (8 * n), 1) = (8 * n, 1) := by
    rw [Manifest.rangeNat, hstart]
    rfl
  rw [hrange]
  refine ⟨Nat.one_pos, fun j hj => ?_, fun j hj hl => ?_, fun hl => ?_⟩
  · obtain rfl : j = 8 * n := by
      unfold Runs.In at hj
      omega
    exact ⟨by omega, lacks_manifest n⟩
  · have hset := has_manifest n (show j < 8 * n by omega)
    rw [hl.2] at hset
    cases hset
  · have := hl.1
    omega

theorem wf_manifest {n : Nat} (hn : 8 * n + 8 < 2 ^ 32) : (manifest n).Wf where
  bitmap := by
    have hcount := numChunks_manifest (show 8 * n + 1 < 2 ^ 32 by omega)
    rw [Manifest.toNat_bitmapLen (by omega), hcount]
    show (List.replicate n (0xff : UInt8) ++ [0]).length = _
    rw [List.length_append, List.length_replicate]
    show n + 1 = _
    omega
  name := by
    show (Utf8.encode ['f']).length < 2 ^ 32
    decide

def disk (n : Nat) : Disk := (manifest n).saved crc32 1 (Disk.fresh [] true)

theorem sidecar_disk {n : Nat} (hn : 8 * n + 8 < 2 ^ 32) : (disk n).sidecar crc32 1 = some (manifest n) :=
  Disk.sidecar_of (Manifest.get_saved_self _ _ _ _) (Manifest.parse_bytes _ _ (wf_manifest hn))

def planned (n : Nat) : Planned := ⟨1, ⟨UInt32.ofNat (8 * n), 1⟩, .retransmit⟩

theorem mem_plan {n : Nat} (hn : 8 * n + 8 < 2 ^ 32) : planned n ∈ Cleaner.plan crc32 (disk n) :=
  Cleaner.mem_plan_gap (sidecar_disk hn) (gap_manifest (by omega))

/-- A sender whose ledger has the file, with the given size. -/
def sender (size : UInt64) : SenderRuntime :=
  .new .default (Ledger.empty.insert ⟨0, ['f'], size, 0, 0, 0, 0, true, 16192, none, none⟩ Ledger.empty_room rfl) 0 0

end Far

/-- The last chunk of nine, of 16160 bytes each. -/
theorem retransmit_means_same_range_nine :
    (((Far.sender 145440).handle 0 (Far.planned 1).request).1 = .ok ∧
      ((Far.sender 145440).handle 0 (Far.planned 1).request).2.queue.items =
        .retransmit 1 ⟨UInt32.ofNat (8 * 1), 1⟩ :: (Far.sender 145440).queue.items) ↔
      (UInt32.ofNat (8 * 1)).toNat < 2 ^ 31 :=
  retransmit_means_same_range_iff crc32 _ (fun _ => Far.disk 1) (fun _ => Far.disk 1) (Far.planned 1) (Far.manifest 1)
    (Far.sender 145440) ⟨1, ['f'], 145440, 0, 0, 0, 0, true, 16192, none, none⟩ 0 (Far.mem_plan (by decide)) rfl
    (Far.sidecar_disk (by decide)) (by decide) (by decide)

/-- **The last chunk of `2 ^ 31 + 1`**: the cleaner asks for it, and the sender queues the whole file. -/
theorem retransmit_means_whole_file :
    Far.planned (2 ^ 28) ∈ Cleaner.plan crc32 (Far.disk (2 ^ 28)) ∧
    (Far.disk (2 ^ 28)).sidecar crc32 1 = some (Far.manifest (2 ^ 28)) ∧
    (Far.sender 34703335767840).ledger.get 1 = some ⟨1, ['f'], 34703335767840, 0, 0, 0, 0, true, 16192, none, none⟩ ∧
    (Far.sender 34703335767840).totalFor 34703335767840 = (Far.manifest (2 ^ 28)).numChunks ∧
    ((Far.sender 34703335767840).handle 0 (Far.planned (2 ^ 28)).request).2.queue.items =
      [.manifest 1 ['f'], .data 1 ⟨0, 2 ^ 31 + 1⟩] := by
  refine ⟨Far.mem_plan (by decide), Far.sidecar_disk (by decide), by decide, by decide, ?_⟩
  decide

end Parachuter
