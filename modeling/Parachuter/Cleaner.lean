import Mathlib.Data.Finset.Sort
import Parachuter.Reassembler
import Parachuter.Sender
/-!
# The cleaner's pass (`cleaner/mod.rs`, `cleaner/dedup.rs`) and the requests it makes of the sender

`planning` is the planning loop: the ids with a sidecar, in order, and for each what is missing.  `requestLoop` goes
through the plan under the link's budget, the sender's own status and the table of recent requests.  Whom it asks is a
parameter, a state `σ` with its `call`; `SenderRuntime.handle` is the sender's side of the two requests.  The clock is
read once for each planned item, `clock k` at the `k`-th.
-/
namespace Parachuter

open Blob (Bytes)

/-- The order in which ids are listed. -/
def FileId.le (a b : FileId) : Prop := a.toInt ≤ b.toInt

namespace FileId

instance : DecidableRel FileId.le := fun a b => inferInstanceAs (Decidable (a.toInt ≤ b.toInt))
instance : IsTrans FileId FileId.le := ⟨fun _ _ _ => Int.le_trans⟩
instance : Std.Antisymm FileId.le := ⟨fun _ _ h h' => Int64.toInt_inj.1 (Int.le_antisymm h h')⟩
instance : Std.Total FileId.le := ⟨fun _ _ => Int.le_total _ _⟩

end FileId

namespace Reassembler

def sidecarId : HoldingFile → Option FileId
  | .manifest id => some id
  | _            => none

theorem sidecarId_inj (f g : HoldingFile) (id : FileId) (hf : id ∈ sidecarId f) (hg : id ∈ sidecarId g) : f = g := by
  cases f <;> cases hf
  cases g <;> cases hg
  rfl

/-- `in_flight`: the ids of the sidecars in the holding directory, ascending. -/
def inFlight (d : Disk) : List FileId := (d.holding.keys.filterMap sidecarId sidecarId_inj).sort FileId.le

theorem mem_inFlight {d : Disk} {id : FileId} : id ∈ inFlight d ↔ d.get (.manifest id) ≠ none := by
  unfold inFlight
  rw [Finset.mem_sort, Finset.mem_filterMap]
  constructor
  · rintro ⟨f, hf, hid⟩
    cases f <;> cases hid
    rw [Finmap.mem_keys] at hf
    exact fun h => Finmap.lookup_eq_none.1 h hf
  · intro h
    refine ⟨.manifest id, ?_, rfl⟩
    rw [Finmap.mem_keys]
    by_contra hn
    exact h (Finmap.lookup_eq_none.2 hn)

theorem nodup_inFlight (d : Disk) : (inFlight d).Nodup := Finset.sort_nodup _ _

end Reassembler

/-! ## Requests -/

inductive RequestType
  | retransmit
  | resendName
  deriving DecidableEq, Repr

/-- The requests a cleaner sends. -/
inductive SenderRequest
  | enqueue (fileId : FileId) (start : Int32) (count : UInt32) (interrupt : Bool)
  | resendName (fileId : FileId)
  deriving DecidableEq, Repr

/-- What `call` makes of it: `Response::Ok`, another response, or an error. -/
inductive Reply
  | ok
  | rejected
  | failed
  deriving DecidableEq, Repr

/-- The sender's side of a request. -/
def SenderRuntime.handle (utc : DateTime) (rt : SenderRuntime) : SenderRequest → Reply × SenderRuntime
  | .enqueue fileId start count interrupt =>
    match rt.enqueue fileId start count interrupt utc with
    | (.ok _, rt)    => (.ok, rt)
    | (.error _, rt) => (.rejected, rt)
  | .resendName fileId =>
    match rt.resendName fileId with
    | (.ok _, rt)    => (.ok, rt)
    | (.error _, rt) => (.rejected, rt)

theorem SenderRuntime.handle_enqueue (utc : DateTime) (rt : SenderRuntime) (id : FileId) (start : Int32) (count : UInt32)
    (interrupt : Bool) :
    (rt.handle utc (.enqueue id start count interrupt)).2 = (rt.enqueue id start count interrupt utc).2 := by
  unfold handle
  dsimp only
  split <;> (rename_i heq; rw [heq])

theorem SenderRuntime.handle_resendName (utc : DateTime) (rt : SenderRuntime) (id : FileId) :
    (rt.handle utc (.resendName id)).2 = (rt.resendName id).2 := by
  unfold handle
  dsimp only
  split <;> (rename_i heq; rw [heq])

structure Planned where
  fileId : FileId
  range  : RequestedRange
  kind   : RequestType
  deriving DecidableEq, Repr

def Planned.request (p : Planned) : SenderRequest :=
  match p.kind with
  | .resendName => .resendName p.fileId
  | .retransmit => .enqueue p.fileId p.range.start.toInt32 p.range.count true

/-- `range.start as i32`: the upper half of the indices comes out negative. -/
theorem toInt32_neg_iff (start : UInt32) : start.toInt32 < 0 ↔ 2 ^ 31 ≤ start.toNat := by
  have := start.toNat_lt
  rw [Int32.lt_iff_toInt_lt]
  show start.toInt32.toBitVec.toInt < 0 ↔ _
  rw [BitVec.toInt_neg_iff]
  show 2 ^ 32 ≤ 2 * start.toNat ↔ _
  omega

/-- **A range within the file, asked for**: queued as it is, or as a request for the whole file. -/
theorem SenderRuntime.handle_range {rt : SenderRuntime} {id : FileId} {row : FileRecord} {total : UInt32}
    {r : RequestedRange} (hrow : rt.ledger.get id = some row)
    (htotal : chunksForSize row.fileSize.toNat (rt.currentChunkSize - HEADER_LEN) = total) (hpos : 0 < r.count.toNat)
    (hend : r.start.toNat + r.count.toNat ≤ total.toNat) (utc : DateTime) :
    rt.handle utc (.enqueue id r.start.toInt32 r.count true) =
      (.ok, if r.start.toNat < 2 ^ 31 then { rt with queue := rt.queue.pushFront (.retransmit id r) }
        else rt.pushFullFile id row.fileName total true utc) := by
  have hid := (Ledger.mem_of_get hrow).2
  have hneg := toInt32_neg_iff r.start
  unfold handle enqueue
  simp only [hrow, htotal, hid]
  by_cases hfar : r.start.toNat < 2 ^ 31
  · have hback : r.start.toInt32.toUInt32 = r.start := rfl
    have hin : ¬ total ≤ r.start := by
      rw [UInt32.le_iff_toNat_le]
      omega
    -- the range is not empty and ends within the file, so its count is neither raised nor cut
    have hkeep : min (max r.count 1) (total - r.start) = r.count := by
      rw [← UInt32.toNat_inj, RequestedRange.toNat_clamp,
        UInt32.toNat_sub_of_le _ _ (UInt32.le_of_lt (UInt32.not_le.1 hin))]
      omega
    rw [if_neg (mt hneg.1 (Nat.not_le.2 hfar)), hback, if_neg hin, hkeep, if_pos hfar]
    rfl
  · rw [if_pos (hneg.2 (Nat.not_lt.1 hfar)), if_neg hfar]

/-! ## The table of recent requests -/

structure DedupTable where
  entries : List (Planned × Nat)
  ttl     : Nat

namespace DedupTable

def new (ttl : Nat) : DedupTable := ⟨[], ttl⟩

/-- `try_insert` at the time `now`: refused while an entry of the same file, kind and range has not expired. -/
def tryInsert (t : DedupTable) (key : Planned) (now : Nat) : Bool × DedupTable :=
  if (t.entries.lookup key).any (fun exp => decide (now < exp)) then (false, t)
  else (true, { t with entries := (key, now + t.ttl) :: t.entries.filter (fun e => e.1 ≠ key) })

def gc (t : DedupTable) (now : Nat) : DedupTable := { t with entries := t.entries.filter (fun e => now < e.2) }

end DedupTable

namespace Cleaner

/-! ## Planning -/

/-- The request for an id whose name is not known; a sidecar that cannot be read counts as one. -/
def planName (id : FileId) (named : Calls.Res Error Bool) : List Planned :=
  match named with
  | .ok true => []
  | _        => [⟨id, ⟨0, 0⟩, .resendName⟩]

def planGaps (id : FileId) (missing : Calls.Res Error (List (UInt32 × UInt32))) : List Planned :=
  match missing with
  | .ok ranges => ranges.map (fun r => ⟨id, ⟨r.1, r.2⟩, .retransmit⟩)
  | _          => []

/-- The planning loop.  The receiver works on: `has_name` and `missing_ranges` open the sidecar each on the disk it
finds. -/
def planning (crc : Bytes → UInt32) (listed : Disk) (atName atGaps : FileId → Disk) : List Planned :=
  (Reassembler.inFlight listed).flatMap (fun id =>
    planName id ((Reassembler.hasName crc id).exec (atName id)).1 ++
    planGaps id ((Reassembler.missingRanges crc id).exec (atGaps id)).1)

/-- The plan on a disk that does not change meanwhile. -/
def plan (crc : Bytes → UInt32) (d : Disk) : List Planned := planning crc d (fun _ => d) (fun _ => d)

/-! ## Requesting -/

def rangeIntersectsAny (target : RequestedRange) (existing : List RequestedRange) : Bool :=
  existing.any (fun e => decide (target.start < e.endId) && decide (e.start < target.endId))

def isAlreadyPending (status : Option (List SenderQueueSnapshot)) (p : Planned) : Bool :=
  match status with
  | none         => false
  | some pending =>
    match pending.find? (fun s => s.fileId = p.fileId) with
    | none       => false
    | some entry =>
      match p.kind with
      | .resendName => entry.manifestPending
      | .retransmit => rangeIntersectsAny p.range entry.ranges

/-- What a pass leaves: the requests it made with their replies, in order, the table, and whom it asked. -/
structure Pass (σ : Type) where
  asked : List (SenderRequest × Reply)
  dedup : DedupTable
  env   : σ

def requestLoop {σ : Type} (call : σ → SenderRequest → Reply × σ) (status : Option (List SenderQueueSnapshot))
    (budget : LinkBudget) (clock : Nat → Nat) : Nat → List Planned → UInt32 → DedupTable → σ → Pass σ
  | _, [], _, dedup, env               => ⟨[], dedup, env⟩
  | k, p :: planned, sent, dedup, env =>
    if budget.maxInFlight ≤ sent then ⟨[], dedup, env⟩
    else if isAlreadyPending status p then requestLoop call status budget clock (k + 1) planned sent dedup env
    else
      let (fresh, dedup) := dedup.tryInsert p (clock k)
      if fresh = false then requestLoop call status budget clock (k + 1) planned sent dedup env
      else
        let (reply, env) := call env p.request
        let sent := if reply = .ok then sent + 1 else sent
        let pass := requestLoop call status budget clock (k + 1) planned sent dedup env
        { pass with asked := (p.request, reply) :: pass.asked }

/-- `run_pass`, less the file its table is saved to. -/
def runPass {σ : Type} (cfg : LiveConfig) (call : σ → SenderRequest → Reply × σ)
    (status : Option (List SenderQueueSnapshot)) (planned : List Planned) (clock : Nat → Nat) (dedup : DedupTable)
    (env : σ) : Except Error (Pass σ) :=
  match cfg.current.cleaner.links.lookup cfg.current.cleaner.activeLink with
  | none        => .error (.badConfig ("no link budget for `" ++ cfg.current.cleaner.activeLink ++ "`"))
  | some budget =>
    let pass := requestLoop call status budget clock 0 planned 0 dedup env
    .ok { pass with dedup := pass.dedup.gc (clock planned.length) }

end Cleaner

end Parachuter
