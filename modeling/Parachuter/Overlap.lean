import Parachuter.Issued
import Parachuter.Moving
import Parachuter.Plan
import Parachuter.Vanished
/-!
# Overlap — the sender's status, its queue, and the gaps a pass asks for

The status groups the queue by file, in order of the ids.  The cleaner finds a file's entry in it and intersects a gap
with the ranges there; on every queue of a running sender that is the same as looking for one of the gap's chunks in the
queue (`pending_retransmit_iff`).  The answer is for the gap as a whole: a gap with one chunk queued is left out of the
pass with all its other chunks.
-/
namespace Parachuter

open Blob (Bytes)

/-! ## Ranges as sets of chunks -/

namespace RequestedRange

/-- The end is a `u32`, and only a range at the very start is empty. -/
structure Fits (r : RequestedRange) : Prop where
  inBounds : r.start.toNat + r.count.toNat < 2 ^ 32
  atStart  : r.count.toNat = 0 → r.start.toNat = 0

theorem contains_iff {r : RequestedRange} (h : r.Fits) {c : UInt32} :
    r.contains c = true ↔ r.start.toNat ≤ c.toNat ∧ c.toNat < r.start.toNat + r.count.toNat := by
  have hend : r.endId.toNat = r.start.toNat + r.count.toNat := by
    rw [endId, UInt32.toNat_add, Nat.mod_eq_of_lt h.inBounds]
  rw [contains, Bool.and_eq_true, decide_eq_true_eq, decide_eq_true_eq, UInt32.le_iff_toNat_le, UInt32.lt_iff_toNat_lt,
    hend]

/-- **Two ranges intersect exactly when they share a chunk**: the greater of the two starts. -/
theorem intersects_iff {r s : RequestedRange} (hr : r.Fits) (hs : s.Fits) :
    (decide (r.start < s.endId) && decide (s.start < r.endId)) = true ↔
      ∃ c, r.contains c = true ∧ s.contains c = true := by
  have hrs : r.endId.toNat = r.start.toNat + r.count.toNat := by
    rw [endId, UInt32.toNat_add, Nat.mod_eq_of_lt hr.inBounds]
  have hss : s.endId.toNat = s.start.toNat + s.count.toNat := by
    rw [endId, UInt32.toNat_add, Nat.mod_eq_of_lt hs.inBounds]
  simp only [contains_iff hr, contains_iff hs, Bool.and_eq_true, decide_eq_true_eq, UInt32.lt_iff_toNat_lt, hrs, hss]
  constructor
  · rintro ⟨h1, h2⟩
    have hr0 := hr.atStart
    have hs0 := hs.atStart
    by_cases hle : r.start.toNat ≤ s.start.toNat
    · exact ⟨s.start, ⟨hle, h2⟩, Nat.le_refl _, by omega⟩
    · exact ⟨r.start, ⟨Nat.le_refl _, by omega⟩, by omega, h1⟩
  · rintro ⟨c, h1, h2⟩
    omega

theorem Fits.rest {r : RequestedRange} (h : r.Fits) (hc : 1 < r.count) : r.rest.Fits := by
  have hc' : 1 < r.count.toNat := UInt32.lt_iff_toNat_lt.1 hc
  have hb := h.inBounds
  obtain ⟨hs, hn⟩ := toNat_rest (Nat.le_of_lt hc') hb
  exact ⟨by omega, fun h0 => by omega⟩

end RequestedRange

/-! ## The ranges on a running sender's queue -/

/-- The range of an item, if it has one, fits. -/
def RangeFits : ItemCond := fun _ _ item => ∀ r ∈ item.range?, r.Fits

theorem rangeFits_stable : RangeFits.Stable where
  mono := fun _ h => h
  data := by
    rintro l c id r hc h _ ⟨⟩
    exact (h r rfl).rest hc
  retransmit := by
    rintro l c id r hc h _ ⟨⟩
    exact (h r rfl).rest hc

theorem rangeFits_manifest (l : Ledger) (c : Nat) (id : FileId) (name : Text) : RangeFits l c (.manifest id name) := by
  rintro r ⟨⟩

theorem rangeFits_whole (l : Ledger) (c : Nat) (id : FileId) (total : UInt32) : RangeFits l c (.data id ⟨0, total⟩) := by
  rintro r ⟨⟩
  refine ⟨?_, fun _ => rfl⟩
  show 0 + total.toNat < 2 ^ 32
  have := total.toNat_lt
  omega

/-- A request for a range is clamped to what there is behind its start. -/
theorem rangeFits_part (l : Ledger) (c : Nat) (id : FileId) {s total : UInt32} (count : UInt32) (h : s < total) :
    RangeFits l c (.retransmit id ⟨s, min (max count 1) (total - s)⟩) := by
  have hlt := UInt32.lt_iff_toNat_lt.1 h
  have htotal := total.toNat_lt
  have hsub := UInt32.toNat_sub_of_le total s (UInt32.le_of_lt h)
  have hclamp := RequestedRange.toNat_clamp count (total - s)
  rintro r ⟨⟩
  refine ⟨?_, fun h0 => ?_⟩
  · show s.toNat + (min (max count 1) (total - s)).toNat < 2 ^ 32
    omega
  · have h0' : (min (max count 1) (total - s)).toNat = 0 := h0
    omega

namespace SenderRuntime

/-- **Every operation leaves only ranges that fit.** -/
theorem rangeFits_apply (crc : Bytes → UInt32) {rt : SenderRuntime} (h : rt.Queued RangeFits) (op : SenderOp) :
    (op.apply crc rt).Queued RangeFits := by
  have hfull : ∀ (l : Ledger) (c : Nat) (id : FileId) (name : Text) (total : UInt32),
      RangeFits l c (.manifest id name) ∧ RangeFits l c (.data id ⟨0, total⟩) :=
    fun l c id name total => ⟨rangeFits_manifest l c id name, rangeFits_whole l c id total⟩
  cases op with
  | submit metadata cwd path interrupt utc =>
    exact h.submit rangeFits_stable _ _ _ _ _ (fun _ _ _ l id _ _ _ => hfull l _ id _ _)
  | enqueue fileId start count interrupt utc =>
    exact h.enqueue rangeFits_stable _ _ _ _ (fun _ _ _ => hfull _ _ _ _ _)
      (fun _ _ s hs => rangeFits_part _ _ _ count hs)
  | resendName fileId => exact h.resendName (fun _ _ => rangeFits_manifest _ _ _ _)
  | scanForWork view utc => exact h.scanForWork rangeFits_stable _ _ (fun _ _ l id _ _ _ => hfull l _ id _ _)
  | applyOverride o => exact h.applyOverride o (fun _ _ _ _ item hi => h item hi)
  | setState new => exact h.setState new
  | flush => exact Queued.clear rt
  | sendNext payload => exact h.sendNext rangeFits_stable crc payload
  | reload cfg => exact h
  | stamp lastRecheck lastStatusDump => exact h

theorem rangeFits_run (crc : Bytes → UInt32) : ∀ (ops : List SenderOp) {rt : SenderRuntime}, rt.Queued RangeFits →
    (SenderOp.run crc rt ops).Queued RangeFits
  | [], _, h        => h
  | op :: ops, _, h => rangeFits_run crc ops (rangeFits_apply crc h op)

/-- **On every queue of a running sender the ranges fit.** -/
theorem rangeFits_reachable (crc : Bytes → UInt32) (cfg : LiveConfig) (ledger : Ledger) (now : Int) (nowSecs : ℚ)
    (ops : List SenderOp) : ∀ item ∈ (SenderOp.run crc (.new cfg ledger now nowSecs) ops).queue.items,
      ∀ r ∈ item.range?, r.Fits :=
  rangeFits_run crc ops (fun _ hi => by cases hi)

end SenderRuntime

/-! ## The status -/

namespace PacketQueue

def Ascending (ss : List SenderQueueSnapshot) : Prop := ss.Pairwise (fun s t => s.fileId.toInt < t.fileId.toInt)

theorem ascending_addToSnapshot (item : WorkItem) : ∀ {ss : List SenderQueueSnapshot}, Ascending ss →
    Ascending (addToSnapshot item ss)
  | [], _       => List.pairwise_singleton _ _
  | s :: ss, h => by
    obtain ⟨hs, hss⟩ := List.pairwise_cons.1 h
    unfold addToSnapshot
    split
    · exact List.pairwise_cons.2 ⟨hs, hss⟩
    rename_i hne
    split
    · rename_i hlt
      refine List.pairwise_cons.2 ⟨fun t ht => ?_, h⟩
      rcases List.mem_cons.1 ht with rfl | ht
      · exact hlt
      · exact Int.lt_trans hlt (hs t ht)
    · rename_i hge
      refine List.pairwise_cons.2 ⟨fun t ht => ?_, ascending_addToSnapshot item hss⟩
      -- an entry further on is an old one, or the item's own
      rcases mem_addToSnapshot.1 (List.mem_map_of_mem ht) with heq | hold
      · rw [← heq]
        exact lt_of_le_of_ne (Int.not_lt.1 hge) (fun h => hne (Int64.toInt_inj.1 h).symm)
      · obtain ⟨u, hu, heq⟩ := List.mem_map.1 hold
        rw [← heq]
        exact hs u hu

/-- What is listed for a file; nothing, where it has no entry. -/
def entryOf (id : FileId) (ss : List SenderQueueSnapshot) : SenderQueueSnapshot :=
  (ss.find? (fun s => s.fileId = id)).getD ⟨id, [], false⟩

theorem entryOf_nil (id : FileId) : entryOf id [] = ⟨id, [], false⟩ := rfl

theorem entryOf_cons_self {id : FileId} {s : SenderQueueSnapshot} (h : s.fileId = id) (ss : List SenderQueueSnapshot) :
    entryOf id (s :: ss) = s := by
  simp [entryOf, h]

theorem entryOf_cons_ne {id : FileId} {s : SenderQueueSnapshot} (h : s.fileId ≠ id) (ss : List SenderQueueSnapshot) :
    entryOf id (s :: ss) = entryOf id ss := by
  simp [entryOf, h]

theorem entryOf_below {id : FileId} {ss : List SenderQueueSnapshot} (h : ∀ s ∈ ss, id.toInt < s.fileId.toInt) :
    entryOf id ss = ⟨id, [], false⟩ := by
  have hnone : ss.find? (fun s => s.fileId = id) = none := by
    rw [List.find?_eq_none]
    intro s hs heq
    have hlt := h s hs
    rw [of_decide_eq_true heq] at hlt
    exact Int.lt_irrefl _ hlt
  rw [entryOf, hnone, Option.getD_none]

/-- An item added to its file's entry. -/
def addItem (s : SenderQueueSnapshot) (item : WorkItem) : SenderQueueSnapshot :=
  { s with ranges := s.ranges ++ item.range?.toList, manifestPending := s.manifestPending || item.range?.isNone }

theorem addItem_empty (item : WorkItem) :
    addItem ⟨item.fileId, [], false⟩ item = ⟨item.fileId, item.range?.toList, item.range?.isNone⟩ := by
  simp [addItem]

/-- **One item changes the entry of its file and no other.** -/
theorem entryOf_addToSnapshot (item : WorkItem) (id : FileId) : ∀ {ss : List SenderQueueSnapshot}, Ascending ss →
    entryOf id (addToSnapshot item ss) = if item.fileId = id then addItem (entryOf id ss) item else entryOf id ss
  | [], _      => by
    unfold addToSnapshot
    split
    · rename_i h
      rw [entryOf_cons_self h, entryOf_nil, ← h, addItem_empty]
    · rename_i h
      exact entryOf_cons_ne h []
  | s :: ss, h => by
    obtain ⟨hs, hss⟩ := List.pairwise_cons.1 h
    unfold addToSnapshot
    split
    · rename_i heq
      by_cases hid : item.fileId = id
      · have hsid : s.fileId = id := heq.symm.trans hid
        rw [if_pos hid, entryOf_cons_self hsid]
        exact entryOf_cons_self (s := addItem s item) hsid ss
      · have hsid : s.fileId ≠ id := fun h => hid (heq.trans h)
        rw [if_neg hid, entryOf_cons_ne hsid]
        exact entryOf_cons_ne (s := addItem s item) hsid ss
    rename_i hne
    split
    · rename_i hlt
      by_cases hid : item.fileId = id
      · have hbelow : ∀ t ∈ s :: ss, id.toInt < t.fileId.toInt := by
          rw [← hid]
          intro t ht
          rcases List.mem_cons.1 ht with rfl | ht
          · exact hlt
          · exact Int.lt_trans hlt (hs t ht)
        rw [if_pos hid, entryOf_below hbelow, entryOf_cons_self hid, ← hid, addItem_empty]
      · rw [if_neg hid]
        exact entryOf_cons_ne hid _
    · by_cases hsid : s.fileId = id
      · rw [entryOf_cons_self hsid, entryOf_cons_self hsid, if_neg (fun h => hne (h.trans hsid.symm))]
      · rw [entryOf_cons_ne hsid, entryOf_cons_ne hsid]
        exact entryOf_addToSnapshot item id hss

theorem snapshot_spec (id : FileId) : ∀ (items : List WorkItem) {ss : List SenderQueueSnapshot}, Ascending ss →
    Ascending (items.foldl (fun ss item => addToSnapshot item ss) ss) ∧
    entryOf id (items.foldl (fun ss item => addToSnapshot item ss) ss) =
      (items.filter (fun i => i.fileId = id)).foldl addItem (entryOf id ss)
  | [], _, h            => ⟨h, rfl⟩
  | item :: items, ss, h => by
    obtain ⟨hasc, hentry⟩ := snapshot_spec id items (ascending_addToSnapshot item h)
    refine ⟨hasc, ?_⟩
    rw [List.foldl_cons, hentry, entryOf_addToSnapshot item id h, List.filter_cons]
    by_cases hid : item.fileId = id
    · simp [hid]
    · simp [hid]

theorem foldl_addItem : ∀ (items : List WorkItem) (s : SenderQueueSnapshot),
    items.foldl addItem s = { s with
      ranges := s.ranges ++ items.filterMap WorkItem.range?
      manifestPending := s.manifestPending || items.any (fun i => i.range?.isNone) }
  | [], s            => by simp
  | item :: items, s => by
    rw [List.foldl_cons, foldl_addItem items]
    cases hr : item.range? with
    | none => simp [addItem, hr]
    | some r => simp [addItem, hr]

/-- **The entry of a file** has the ranges of its items, in the queue's order. -/
theorem entryOf_snapshot (q : PacketQueue) (id : FileId) :
    entryOf id q.snapshot = ⟨id, (q.items.filter (fun i => i.fileId = id)).filterMap WorkItem.range?,
      (q.items.filter (fun i => i.fileId = id)).any (fun i => i.range?.isNone)⟩ := by
  unfold snapshot
  rw [(snapshot_spec id q.items List.Pairwise.nil).2, foldl_addItem, entryOf_nil]
  simp

theorem ascending_snapshot (q : PacketQueue) : Ascending q.snapshot := (snapshot_spec 0 q.items List.Pairwise.nil).1

theorem containsChunk_iff {q : PacketQueue} {id : FileId} {c : UInt32} :
    q.containsChunk id c = true ↔ ∃ item ∈ q.items, item.fileId = id ∧ ∃ r ∈ item.range?, r.contains c = true := by
  unfold containsChunk
  rw [List.any_eq_true]
  refine exists_congr (fun item => and_congr_right (fun _ => ?_))
  cases item.range? with
  | none => simp
  | some r => simp

end PacketQueue

/-! ## The cleaner's test -/

namespace Cleaner

theorem isAlreadyPending_some (ss : List SenderQueueSnapshot) (p : Planned) :
    isAlreadyPending (some ss) p =
      match p.kind with
      | .resendName => (PacketQueue.entryOf p.fileId ss).manifestPending
      | .retransmit => rangeIntersectsAny p.range (PacketQueue.entryOf p.fileId ss).ranges := by
  unfold isAlreadyPending PacketQueue.entryOf
  dsimp only
  cases ss.find? (fun s => s.fileId = p.fileId) with
  | none => cases p.kind <;> rfl
  | some entry => rfl

variable {q : PacketQueue} {id : FileId}

/-- **A gap is pending exactly when the queue has one of its chunks.** -/
theorem pending_retransmit_iff (hq : ∀ item ∈ q.items, ∀ s ∈ item.range?, s.Fits) {r : RequestedRange} (hr : r.Fits) :
    isAlreadyPending (some q.snapshot) ⟨id, r, .retransmit⟩ = true ↔
      ∃ c, r.contains c = true ∧ q.containsChunk id c = true := by
  rw [isAlreadyPending_some, PacketQueue.entryOf_snapshot]
  simp only [PacketQueue.containsChunk_iff]
  unfold rangeIntersectsAny
  rw [List.any_eq_true]
  constructor
  · rintro ⟨s, hs, hcross⟩
    obtain ⟨item, hitem, hrange⟩ := List.mem_filterMap.1 hs
    obtain ⟨hmem, hid⟩ := List.mem_filter.1 hitem
    obtain ⟨c, hc, hcs⟩ := (RequestedRange.intersects_iff hr (hq item hmem s hrange)).1 hcross
    exact ⟨c, hc, item, hmem, of_decide_eq_true hid, s, hrange, hcs⟩
  · rintro ⟨c, hc, item, hmem, hid, s, hrange, hcs⟩
    have hitem : item ∈ q.items.filter (fun i => i.fileId = id) := List.mem_filter.2 ⟨hmem, decide_eq_true hid⟩
    exact ⟨s, List.mem_filterMap.2 ⟨item, hitem, hrange⟩,
      (RequestedRange.intersects_iff hr (hq item hmem s hrange)).2 ⟨c, hc, hcs⟩⟩

theorem pending_resendName_iff {r : RequestedRange} : isAlreadyPending (some q.snapshot) ⟨id, r, .resendName⟩ = true ↔
    ∃ name, WorkItem.manifest id name ∈ q.items := by
  rw [isAlreadyPending_some, PacketQueue.entryOf_snapshot]
  dsimp only
  rw [List.any_eq_true]
  constructor
  · rintro ⟨item, hitem, hnone⟩
    obtain ⟨hmem, hid⟩ := List.mem_filter.1 hitem
    obtain rfl : item.fileId = id := of_decide_eq_true hid
    cases item with
    | manifest fileId name => exact ⟨name, hmem⟩
    | data fileId range => cases hnone
    | retransmit fileId range => cases hnone
  · rintro ⟨name, hmem⟩
    exact ⟨.manifest id name, List.mem_filter.2 ⟨hmem, decide_eq_true rfl⟩, rfl⟩

end Cleaner

/-- **The status agrees with the queue**, whatever the sender has done: an entry for each file with work, in order of the
ids, a gap pending exactly when one of its chunks is queued, and a name exactly when its manifest is. -/
theorem status_agrees_with_queue (crc : Bytes → UInt32) (cfg : LiveConfig) (ledger : Ledger) (now : Int) (nowSecs : ℚ)
    (ops : List SenderOp) :
    let q := (SenderOp.run crc (.new cfg ledger now nowSecs) ops).queue
    (q.snapshot.map SenderQueueSnapshot.fileId).Pairwise (fun a b => a.toInt < b.toInt) ∧
    (∀ id, id ∈ q.snapshot.map SenderQueueSnapshot.fileId ↔ ∃ item ∈ q.items, item.fileId = id) ∧
    (∀ (id : FileId) (r : RequestedRange), 1 ≤ r.count.toNat → r.start.toNat + r.count.toNat ≤ 2 ^ 32 - 1 →
      (Cleaner.isAlreadyPending (some q.snapshot) ⟨id, r, .retransmit⟩ = true ↔
        ∃ c, r.contains c = true ∧ q.containsChunk id c = true)) ∧
    ∀ (id : FileId) (r : RequestedRange), Cleaner.isAlreadyPending (some q.snapshot) ⟨id, r, .resendName⟩ = true ↔
      ∃ name, WorkItem.manifest id name ∈ q.items := by
  intro q
  have hq := SenderRuntime.rangeFits_reachable crc cfg ledger now nowSecs ops
  refine ⟨List.pairwise_map.2 q.ascending_snapshot, fun id => PacketQueue.mem_snapshot, fun id r hpos hle => ?_,
    fun id r => Cleaner.pending_resendName_iff⟩
  exact Cleaner.pending_retransmit_iff hq ⟨by omega, fun h0 => by omega⟩

/-- A file queued whole: its first chunk is pending. -/
theorem status_agrees_with_queue_forty :
    Cleaner.isAlreadyPending (some (SenderOp.run crc32 Forty.start [Forty.setChunkSize 64, Forty.submit]).queue.snapshot)
      ⟨1, ⟨0, 1⟩, .retransmit⟩ = true :=
  ((status_agrees_with_queue crc32 .default .empty 0 0 [Forty.setChunkSize 64, Forty.submit]).2.2.1 1 ⟨0, 1⟩ (by decide)
    (by decide)).2 ⟨0, by decide, by decide +kernel⟩

/-! ## What a pass leaves out -/

namespace Cleaner

/-- A chunk that the sidecar does not mark and that is in no range on the queue. -/
structure Due (crc : Bytes → UInt32) (d : Disk) (q : PacketQueue) (id : FileId) (c : UInt32) : Prop where
  missing   : ∃ m, d.sidecar crc id = some m ∧ c.toNat < m.numChunks.toNat ∧ m.has c.toNat = false
  notQueued : q.containsChunk id c = false

/-- A gap with a chunk on the queue has all its chunks there; or there is a gap with none, so far in that its start is
negative as an `i32`, which asks for the whole file. -/
def WholeGaps (q : PacketQueue) (id : FileId) (m : Manifest) : Prop :=
  (∀ r ∈ m.missingRanges, (∃ c, RequestedRange.contains ⟨r.1, r.2⟩ c = true ∧ q.containsChunk id c = true) →
    ∀ c, RequestedRange.contains ⟨r.1, r.2⟩ c = true → q.containsChunk id c = true) ∨
  ∃ r ∈ m.missingRanges, 2 ^ 31 ≤ r.1.toNat ∧
    ∀ c, RequestedRange.contains ⟨r.1, r.2⟩ c = true → q.containsChunk id c = false

theorem fits_missing {m : Manifest} {r : UInt32 × UInt32} (h : r ∈ m.missingRanges) :
    RequestedRange.Fits ⟨r.1, r.2⟩ := by
  obtain ⟨hpos, hle⟩ := Manifest.missingRanges_bounds h
  have := m.numChunks.toNat_lt
  exact ⟨Nat.lt_of_le_of_lt hle this, fun h0 => absurd h0 (Nat.ne_of_gt hpos)⟩

/-- What a request for a gap asks for. -/
theorem covers_request {id j : FileId} {r : RequestedRange} {c : Nat} :
    (Planned.request ⟨id, r, .retransmit⟩).Covers j c ↔
      id = j ∧ (2 ^ 31 ≤ r.start.toNat ∨ r.start.toNat ≤ c ∧ c < r.start.toNat + r.count.toNat) := by
  show id = j ∧ (r.start.toInt32 < 0 ∨ _) ↔ _
  rw [toInt32_neg_iff]
  rfl

section

variable {σ : Type} {crc : Bytes → UInt32} {call : σ → SenderRequest → Reply × σ} {d : Disk} {q : PacketQueue}
  (hq : ∀ item ∈ q.items, ∀ s ∈ item.range?, s.Fits) {budget : LinkBudget} {rd : Readings} {ttl : Nat} {env : σ}
  {id : FileId} {m : Manifest} (hm : d.sidecar crc id = some m)

include hm

theorem mem_plan_gap {r : UInt32 × UInt32} (hr : r ∈ m.missingRanges) :
    (⟨id, ⟨r.1, r.2⟩, .retransmit⟩ : Planned) ∈ plan crc d := by
  have hmem : (⟨id, ⟨r.1, r.2⟩, .retransmit⟩ : Planned) ∈ (plan crc d).filter (fun p => p.fileId = id) := by
    rw [filter_plan hm]
    exact mem_requestsFor.2 (.inr ⟨r, hr, rfl⟩)
  exact (List.mem_filter.1 hmem).1

include hq

/-- **A gap with nothing queued is asked for.** -/
theorem gap_issued
    (hbudget : okCount (issued call (some q.snapshot) budget rd (.new ttl) env (plan crc d)) < budget.maxInFlight.toNat)
    {r : UInt32 × UInt32} (hr : r ∈ m.missingRanges)
    (hfree : ∀ c, RequestedRange.contains ⟨r.1, r.2⟩ c = true → q.containsChunk id c = false) :
    ∃ i ∈ issued call (some q.snapshot) budget rd (.new ttl) env (plan crc d),
      i.planned = ⟨id, ⟨r.1, r.2⟩, .retransmit⟩ := by
  have hpend : isAlreadyPending (some q.snapshot) ⟨id, ⟨r.1, r.2⟩, .retransmit⟩ = false := by
    rw [← Bool.not_eq_true, pending_retransmit_iff hq (fits_missing hr)]
    rintro ⟨c, hc, hqueued⟩
    rw [hfree c hc] at hqueued
    cases hqueued
  exact exists_issued hbudget (mem_plan_gap hm hr) hpend (by simp [DedupTable.new])

/-- **A request that covers a chunk of the file is for a gap with nothing queued.** -/
theorem gap_of_issued {i : Issue} (hi : i ∈ issued call (some q.snapshot) budget rd (.new ttl) env (plan crc d)) {c : Nat}
    (hcov : i.planned.request.Covers id c) : ∃ r ∈ m.missingRanges,
      (∀ c, RequestedRange.contains ⟨r.1, r.2⟩ c = true → q.containsChunk id c = false) ∧
      (2 ^ 31 ≤ r.1.toNat ∨ r.1.toNat ≤ c ∧ c < r.1.toNat + r.2.toNat) := by
  obtain ⟨hplan, hpend⟩ := mem_issued hi
  obtain ⟨⟨fileId, range, kind⟩, lookedUp, sentAt, answeredAt, reply⟩ := i
  cases kind with
  | resendName => exact hcov.elim
  | retransmit =>
    obtain ⟨rfl, hin⟩ := covers_request.1 hcov
    have hmem : (⟨fileId, range, .retransmit⟩ : Planned) ∈ requestsFor fileId m := by
      rw [← filter_plan hm]
      exact List.mem_filter.2 ⟨hplan, decide_eq_true rfl⟩
    rcases mem_requestsFor.1 hmem with ⟨-, h⟩ | ⟨r, hr, h⟩
    · cases h
    · cases h
      refine ⟨r, hr, fun c hc => ?_, hin⟩
      rw [← Bool.not_eq_true]
      intro hqueued
      rw [(pending_retransmit_iff hq (fits_missing hr)).2 ⟨c, hc, hqueued⟩] at hpend
      cases hpend

end

end Cleaner

/-- **When a pass asks for all that is not queued**: exactly when every gap with a chunk on the queue is there as a whole.
The sender is any that runs, the table is empty, the link's budget is not reached. -/
theorem pass_asks_for_rest_iff {σ : Type} (crc : Bytes → UInt32) (scfg : LiveConfig) (ledger : Ledger) (now : Int)
    (nowSecs : ℚ) (ops : List SenderOp) (cfg : LiveConfig) (call : σ → SenderRequest → Reply × σ) (d : Disk)
    (rd : Cleaner.Readings) (ttl : Nat) (env : σ) (budget : LinkBudget) (pass : Cleaner.Pass σ)
    (hlink : cfg.current.cleaner.links.lookup cfg.current.cleaner.activeLink = some budget)
    (hpass : Cleaner.runPass cfg call
      (some (SenderOp.run crc (.new scfg ledger now nowSecs) ops).queue.snapshot) (Cleaner.plan crc d) rd.lookedUp
      (.new ttl) env = .ok pass)
    (hbudget : pass.asked.countP (fun a => a.2 = .ok) < budget.maxInFlight.toNat) :
    (∀ (id : FileId) (c : UInt32),
      Cleaner.Due crc d (SenderOp.run crc (.new scfg ledger now nowSecs) ops).queue id c →
      ∃ a ∈ pass.asked, a.1.Covers id c.toNat) ↔
    ∀ (id : FileId) (m : Manifest), d.sidecar crc id = some m →
      Cleaner.WholeGaps (SenderOp.run crc (.new scfg ledger now nowSecs) ops).queue id m := by
  have hq := SenderRuntime.rangeFits_reachable crc scfg ledger now nowSecs ops
  generalize (SenderOp.run crc (.new scfg ledger now nowSecs) ops).queue = q at *
  obtain rfl : cfg.budget = budget := by
    rw [cfg.lookup_budget] at hlink
    cases hlink
    rfl
  have hasked : pass.asked =
      (Cleaner.issued call (some q.snapshot) cfg.budget rd (.new ttl) env (Cleaner.plan crc d)).map
        (fun i => (i.planned.request, i.reply)) := by
    rw [Cleaner.runPass_eq] at hpass
    cases hpass
    rfl
  rw [hasked, List.countP_map] at hbudget
  have hcovered : ∀ id c, (∃ a ∈ pass.asked, a.1.Covers id c) ↔
      ∃ i ∈ Cleaner.issued call (some q.snapshot) cfg.budget rd (.new ttl) env (Cleaner.plan crc d),
        i.planned.request.Covers id c := by
    intro id c
    rw [hasked]
    simp only [List.mem_map, exists_exists_and_eq_and]
  simp only [hcovered]
  constructor
  · intro hall id m hm
    by_contra hwhole
    rw [Cleaner.WholeGaps, not_or] at hwhole
    obtain ⟨hpart, hfar⟩ := hwhole
    push Not at hpart
    obtain ⟨r, hr, ⟨b, hb, hqueued⟩, c, hc, hnot⟩ := hpart
    have hin := (RequestedRange.contains_iff (Cleaner.fits_missing hr)).1 hc
    obtain ⟨hlt, hclear⟩ := (m.mem_missingRanges c.toNat).1 ⟨r, hr, hin⟩
    obtain ⟨i, hi, hcov⟩ := hall id c ⟨⟨m, hm, hlt, hclear⟩, Bool.eq_false_of_not_eq_true hnot⟩
    obtain ⟨r', hr', hfree, hfar' | hin'⟩ := Cleaner.gap_of_issued hq hm hi hcov
    · exact hfar ⟨r', hr', hfar', hfree⟩
    · obtain rfl := m.missingRanges_disjoint hr hr' hin hin'
      rw [hfree b hb] at hqueued
      cases hqueued
  · rintro hwhole id c ⟨⟨m, hm, hlt, hclear⟩, hnot⟩
    rcases hwhole id m hm with hgaps | ⟨r, hr, hfar, hfree⟩
    · obtain ⟨r, hr, hin⟩ := (m.mem_missingRanges c.toNat).2 ⟨hlt, hclear⟩
      have hc := (RequestedRange.contains_iff (Cleaner.fits_missing hr)).2 hin
      -- a chunk of the gap on the queue would bring this one with it
      have hfree : ∀ b, RequestedRange.contains ⟨r.1, r.2⟩ b = true → q.containsChunk id b = false := by
        intro b hb
        rw [← Bool.not_eq_true]
        intro hqueued
        rw [hgaps r hr ⟨b, hb, hqueued⟩ c hc] at hnot
        cases hnot
      obtain ⟨i, hi, heq⟩ := Cleaner.gap_issued hq hm hbudget hr hfree
      exact ⟨i, hi, by rw [heq]; exact Cleaner.covers_request.2 ⟨rfl, .inr hin⟩⟩
    · obtain ⟨i, hi, heq⟩ := Cleaner.gap_issued hq hm hbudget hr hfree
      exact ⟨i, hi, by rw [heq]; exact Cleaner.covers_request.2 ⟨rfl, .inl hfar⟩⟩

namespace Forty

/-- The ground once the file's manifest is there, and nothing else of it. -/
def named : Disk :=
  ((receive crc32 [] (((source 64 Source.sizeOk_64).chunker.manifestPacket "/a".toList).encode crc32)).exec (.fresh [] true)).2

theorem eq_one_of_keys {d : Disk} (hkeys : ∀ f ∈ d.holding.keys, f = .manifest 1 ∨ f = .incoming 1) {j : FileId}
    (hj : d.get (.manifest j) ≠ none) : j = 1 := by
  unfold Disk.get at hj
  rw [ne_eq, Finmap.lookup_eq_none, not_not, ← Finmap.mem_keys] at hj
  rcases hkeys _ hj with h | h
  · cases h
    rfl
  · cases h

/-- The plan on a disk with one sidecar, read off it. -/
theorem plan_of_keys {d : Disk} {planned : List Planned} (hside : (d.sidecar crc32 1).map (Cleaner.requestsFor 1) = some planned)
    (hkeys : ∀ f ∈ d.holding.keys, f = .manifest 1 ∨ f = .incoming 1) : Cleaner.plan crc32 d = planned := by
  obtain ⟨m, hm, hplan⟩ := Option.map_eq_some_iff.1 hside
  rw [Cleaner.plan_single hm (fun j => eq_one_of_keys hkeys), hplan]

theorem plan_named : Cleaner.plan crc32 named = [⟨1, ⟨0, 2⟩, .retransmit⟩] :=
  plan_of_keys (by decide +kernel) (by decide +kernel)

/-- A clock that stands at `t`. -/
def clockAt (t : Nat) : Cleaner.Readings :=
  ⟨fun _ => t, fun _ => t, fun _ => t, fun _ => ⟨Nat.le_refl t, Nat.le_refl t, Nat.le_refl t⟩⟩

theorem lacks_first : ∃ m, named.sidecar crc32 1 = some m ∧ (0 : UInt32) < m.numChunks ∧ m.has 0 = false := by
  have hside : (named.sidecar crc32 1).map (fun m => (m.numChunks, m.has 0)) = some (2, false) := by decide +kernel
  obtain ⟨m, hm, heq⟩ := Option.map_eq_some_iff.1 hside
  rw [Prod.mk.injEq] at heq
  exact ⟨m, hm, by rw [heq.1]; decide, heq.2⟩

end Forty

/-! ## A file of three chunks -/

namespace Threefold

def files (name : Text) : Option Bytes := if name = "/a".toList then some (List.replicate 96 0) else none

/-- The file is submitted at 64 bytes a datagram; its manifest and its first two chunks are sent. -/
def ops : List SenderOp :=
  [Forty.setChunkSize 64, .submit (fun _ => .ok ⟨true, 96, 0⟩) none "/a".toList false 0, .sendNext (.ideal files),
    .sendNext (.ideal files), .sendNext (.ideal files)]

def source : Source where
  fileId := 1
  name := "/a".toList
  bytes := List.replicate 96 0
  chunkSize := 64
  sizeOk := Source.sizeOk_64
  nameOk := Forty.nameOk
  nameFits := Forty.nameFits
  countFits := by rw [List.length_replicate]; decide

/-- The ground once the first chunk is lost and the second one there. -/
def gapped : Disk :=
  ([source.chunker.manifestPacket source.name] ++ source.dataPackets [1]).foldl (fun d p => ((receivePacket crc32 [] p).exec d).2)
    (.fresh [] true)

theorem keys_gapped : ∀ f ∈ gapped.holding.keys, f = .manifest 1 ∨ f = .incoming 1 := by decide +kernel

theorem plan_gapped : Cleaner.plan crc32 gapped = [⟨1, ⟨0, 1⟩, .retransmit⟩, ⟨1, ⟨2, 1⟩, .retransmit⟩] :=
  Forty.plan_of_keys (by decide +kernel) keys_gapped

theorem snapshot_ops : (SenderOp.run crc32 Forty.start ops).queue.snapshot = [⟨1, [⟨2, 1⟩], false⟩] := by decide +kernel

theorem whole_gapped (id : FileId) (m : Manifest) (hm : gapped.sidecar crc32 id = some m) :
    Cleaner.WholeGaps (SenderOp.run crc32 Forty.start ops).queue id m := by
  obtain rfl : id = 1 := by
    obtain ⟨buf, hbuf, -⟩ := Disk.sidecar_some hm
    exact Forty.eq_one_of_keys keys_gapped (by rw [hbuf]; exact Option.some_ne_none _)
  have hside : (gapped.sidecar crc32 1).map (·.missingRanges) = some [(0, 1), (2, 1)] := by decide +kernel
  rw [hm, Option.map_some, Option.some.injEq] at hside
  have hlost : (SenderOp.run crc32 Forty.start ops).queue.containsChunk 1 0 = false := by decide +kernel
  have hpending : (SenderOp.run crc32 Forty.start ops).queue.containsChunk 1 2 = true := by decide +kernel
  -- a gap of one chunk holds no other
  have hone : ∀ s c : UInt32, (s, 1) ∈ m.missingRanges → RequestedRange.contains ⟨s, 1⟩ c = true → c = s := by
    intro s c hs hc
    obtain ⟨hle, hlt⟩ := (RequestedRange.contains_iff (Cleaner.fits_missing hs)).1 hc
    exact UInt32.toNat_inj.1 (Nat.le_antisymm (Nat.le_of_lt_succ hlt) hle)
  refine .inl (fun r hr => ?_)
  have hmem := hr
  rw [hside, List.mem_pair] at hmem
  rcases hmem with rfl | rfl
  · rintro ⟨c, hc, hqueued⟩
    rw [hone 0 c hr hc, hlost] at hqueued
    cases hqueued
  · rintro - c hc
    rw [hone 2 c hr hc]
    exact hpending

end Threefold

/-- **The first chunk is lost, and the last one, a gap of its own, is still queued**: the first one is asked for. -/
theorem pass_asks_for_rest_tail_pending :
    let q := (SenderOp.run crc32 Forty.start Threefold.ops).queue
    q.containsChunk 1 2 = true ∧ Cleaner.Due crc32 Threefold.gapped q 1 0 ∧
    ∀ (id : FileId) (c : UInt32), Cleaner.Due crc32 Threefold.gapped q id c →
      ∃ a ∈ [(SenderRequest.enqueue 1 0 1 true, Reply.ok)], a.1.Covers id c.toNat := by
  intro q
  have hside : (Threefold.gapped.sidecar crc32 1).map (fun m => (m.numChunks, m.has 0)) = some (3, false) := by decide +kernel
  obtain ⟨m, hm, heq⟩ := Option.map_eq_some_iff.1 hside
  rw [Prod.mk.injEq] at heq
  refine ⟨by decide +kernel, ⟨⟨m, hm, by rw [heq.1]; decide, heq.2⟩, by decide +kernel⟩, ?_⟩
  refine (pass_asks_for_rest_iff crc32 .default .empty 0 0 Threefold.ops .default (fun (u : Unit) _ => (.ok, u))
    Threefold.gapped (Forty.clockAt 0) (300 * SECOND) () ⟨8, 500⟩
    ⟨[(.enqueue 1 0 1 true, .ok)], ⟨[(⟨1, ⟨0, 1⟩, .retransmit⟩, 300 * SECOND)], 300 * SECOND⟩, ()⟩ rfl ?_ (by decide)).2
    Threefold.whole_gapped
  have hsnap := Threefold.snapshot_ops
  unfold Forty.start at hsnap
  rw [Threefold.plan_gapped, hsnap]
  rfl

/-- **The first chunk is lost while the second is still queued.**  The gap of both is pending for the second's sake: the
pass asks for nothing, and the first is neither queued nor asked for. -/
theorem pass_leaves_out_lost_chunk :
    let q := (SenderOp.run crc32 Forty.start [Forty.setChunkSize 64, Forty.submit, Forty.send, Forty.send]).queue
    ∃ (budget : LinkBudget) (pass : Cleaner.Pass Unit),
      LiveConfig.default.current.cleaner.links.lookup LiveConfig.default.current.cleaner.activeLink = some budget ∧
      Cleaner.runPass .default (fun (u : Unit) _ => (.ok, u)) (some q.snapshot) (Cleaner.plan crc32 Forty.named)
        (Forty.clockAt 0).lookedUp (.new (300 * SECOND)) () = .ok pass ∧
      pass.asked.countP (fun a => a.2 = .ok) < budget.maxInFlight.toNat ∧
      Cleaner.Due crc32 Forty.named q 1 0 ∧ ¬ ∃ a ∈ pass.asked, a.1.Covers 1 0 := by
  intro q
  refine ⟨⟨8, 500⟩, ⟨[], .new (300 * SECOND), ()⟩, rfl, ?_, by decide, ⟨Forty.lacks_first, by decide +kernel⟩, by simp⟩
  rw [Forty.plan_named]
  have hsnap : q.snapshot = [⟨1, [⟨1, 1⟩], false⟩] := by decide +kernel
  rw [hsnap]
  rfl

end Parachuter
