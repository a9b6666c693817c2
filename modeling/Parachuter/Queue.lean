import Parachuter.Basic
/-!
# The sender's work queue (`sender/queue.rs`) and chunk ranges (`control/messages.rs`)
-/
namespace Parachuter

structure RequestedRange where
  start : UInt32
  count : UInt32
  deriving DecidableEq, Repr

namespace RequestedRange

/-- `end`, in `u32`. -/
def endId (r : RequestedRange) : UInt32 := r.start + r.count

def contains (r : RequestedRange) (chunk : UInt32) : Bool := decide (r.start ≤ chunk) && decide (chunk < r.endId)

/-- What is left once the first chunk is out. -/
def rest (r : RequestedRange) : RequestedRange := ⟨r.start + 1, r.count - 1⟩

theorem toNat_rest {r : RequestedRange} (h1 : 1 ≤ r.count.toNat) (h : r.start.toNat + r.count.toNat < 2 ^ 32) :
    r.rest.start.toNat = r.start.toNat + 1 ∧ r.rest.count.toNat = r.count.toNat - 1 := by
  refine ⟨?_, UInt32.toNat_sub_of_le _ _ (UInt32.le_iff_toNat_le.2 h1)⟩
  show (r.start + 1).toNat = _
  rw [UInt32.toNat_add, UInt32.toNat_one, Nat.mod_eq_of_lt (by omega)]

theorem toNat_clamp (count rest : UInt32) : (min (max count 1) rest).toNat = min (max count.toNat 1) rest.toNat := by
  have hmax : (max count 1).toNat = max count.toNat 1 := by
    show (if count ≤ 1 then 1 else count).toNat = _
    split
    · rename_i h; exact (Nat.max_eq_right (UInt32.le_iff_toNat_le.1 h)).symm
    · rename_i h; exact (Nat.max_eq_left (Nat.le_of_lt (UInt32.lt_iff_toNat_lt.1 (UInt32.not_le.1 h)))).symm
  show (if max count 1 ≤ rest then max count 1 else rest).toNat = _
  split
  · rename_i h
    rw [← hmax, Nat.min_eq_left (UInt32.le_iff_toNat_le.1 h)]
  · rename_i h
    rw [← hmax, Nat.min_eq_right (Nat.le_of_lt (UInt32.lt_iff_toNat_lt.1 (UInt32.not_le.1 h)))]

end RequestedRange

inductive WorkItem
  | manifest (fileId : FileId) (fileName : Text)
  | data (fileId : FileId) (range : RequestedRange)
  | retransmit (fileId : FileId) (range : RequestedRange)
  deriving DecidableEq, Repr

namespace WorkItem

def fileId : WorkItem → FileId
  | .manifest id _   => id
  | .data id _       => id
  | .retransmit id _ => id

def packetCount : WorkItem → UInt32
  | .manifest _ _   => 1
  | .data _ r       => r.count
  | .retransmit _ r => r.count

/-- The chunk range of an item, if it has one. -/
def range? : WorkItem → Option RequestedRange
  | .manifest _ _   => none
  | .data _ r       => some r
  | .retransmit _ r => some r

end WorkItem

/-- Per-file portion of the sender's status. -/
structure SenderQueueSnapshot where
  fileId          : FileId
  ranges          : List RequestedRange
  manifestPending : Bool
  deriving DecidableEq, Repr

structure PacketQueue where
  items    : List WorkItem
  revision : UInt64
  deriving DecidableEq, Repr

namespace PacketQueue

def new : PacketQueue := ⟨[], 0⟩

def pushBack (q : PacketQueue) (item : WorkItem) : PacketQueue := ⟨q.items ++ [item], q.revision + 1⟩

def pushFront (q : PacketQueue) (item : WorkItem) : PacketQueue := ⟨item :: q.items, q.revision + 1⟩

/-- `pop_front`, with the queue that is left. -/
def popFront (q : PacketQueue) : Option (WorkItem × PacketQueue) :=
  match q.items with
  | []            => none
  | item :: items => some (item, ⟨items, q.revision + 1⟩)

def clear (q : PacketQueue) : PacketQueue :=
  match q.items with
  | []     => q
  | _ :: _ => ⟨[], q.revision + 1⟩

/-- `depth`, in `u32`. -/
def depth (q : PacketQueue) : UInt32 := (q.items.map WorkItem.packetCount).sum

/-- One item added to the entry of its file; entries are kept in order of `file_id`. -/
def addToSnapshot (item : WorkItem) : List SenderQueueSnapshot → List SenderQueueSnapshot
  | []      => [⟨item.fileId, item.range?.toList, item.range?.isNone⟩]
  | s :: ss =>
    if item.fileId = s.fileId then
      { s with ranges := s.ranges ++ item.range?.toList, manifestPending := s.manifestPending || item.range?.isNone } :: ss
    else if item.fileId.toInt < s.fileId.toInt then ⟨item.fileId, item.range?.toList, item.range?.isNone⟩ :: s :: ss
    else s :: addToSnapshot item ss

def snapshot (q : PacketQueue) : List SenderQueueSnapshot := q.items.foldl (fun ss item => addToSnapshot item ss) []

def containsChunk (q : PacketQueue) (fileId : FileId) (chunk : UInt32) : Bool :=
  q.items.any (fun i => i.range?.any (fun r => decide (i.fileId = fileId) && r.contains chunk))

@[simp] theorem pushBack_items (q : PacketQueue) (item : WorkItem) : (q.pushBack item).items = q.items ++ [item] := rfl
@[simp] theorem pushFront_items (q : PacketQueue) (item : WorkItem) : (q.pushFront item).items = item :: q.items := rfl
@[simp] theorem clear_items (q : PacketQueue) : q.clear.items = [] := by
  unfold clear
  cases h : q.items with
  | nil => exact h
  | cons i is => rfl

end PacketQueue

end Parachuter
