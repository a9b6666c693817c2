import Parachuter.Cleaner
/-!
# Reconciliation (`reconcile.rs`, `cleaner/reconciler.rs`)

`classify` compares one row of a ledger snapshot with the ground, `run` is one pass: list what is in flight, classify
every row, and ask the sender for the files lost whole.  The receiver works on meanwhile: the disk is looked at once for
each row, `view k` at the `k`-th.  The snapshot itself, found under the final directory and parsed, is passed in.
-/
namespace Parachuter

/-- One row of a ledger snapshot, as far as reconciliation cares. -/
structure SnapshotRow where
  fileId      : FileId
  fileName    : Text
  fileSize    : UInt64
  createdAt   : Option DateTime
  stillExists : Bool
  queuedAt    : Option DateTime
  deriving DecidableEq, Repr

inductive Verdict
  | complete
  | sizeMismatch (expected found : UInt64)
  | inFlight (stale : Bool)
  | queued
  | tooRecent
  | goneOnPayload
  | missing
  deriving DecidableEq, Repr

/-- What the reconciler knows: the assemblies in holding with the seconds since their last change, and the ids with
anything queued on the sender, unless it could not be asked. -/
structure GroundState where
  inFlight      : List (FileId × UInt64)
  senderPending : Option (List FileId)

namespace Reconcile

/-- `DateTime::timestamp`. -/
def timestamp (t : DateTime) : Int64 := Int64.ofInt (t / 1000000000)

/-- `TimeDelta::num_seconds` of a difference: whole seconds, towards zero. -/
def numSeconds (delta : Int) : Int := delta.tdiv 1000000000

/-- Queued, or else created, within the grace period. -/
def isRecent (row : SnapshotRow) (now : DateTime) (graceSecs : UInt64) : Bool :=
  (row.queuedAt.or row.createdAt).any (fun since => decide (numSeconds (now - since) < graceSecs.toInt64.toInt))

/-- The verdict on a file that has not landed. -/
def classifyAbsent (row : SnapshotRow) (ground : GroundState) (now : DateTime) (graceSecs : UInt64) : Verdict :=
  match ground.inFlight.lookup row.fileId with
  | some age => .inFlight (decide (graceSecs < age))
  | none     =>
    if ground.senderPending.any (fun p => p.contains row.fileId) then .queued
    else if row.stillExists = false then .goneOnPayload
    else if isRecent row now graceSecs then .tooRecent
    else .missing

def classify (row : SnapshotRow) (finals : Path) (d : Disk) (ground : GroundState) (now : DateTime) (graceSecs : UInt64) :
    Verdict :=
  match d.node (groundPath finals row.fileName) with
  | some (.file b) =>
    if UInt64.ofNat b.length = row.fileSize then .complete else .sizeMismatch row.fileSize (UInt64.ofNat b.length)
  | _              => classifyAbsent row ground now graceSecs

def plan (finals : Path) (ground : GroundState) (now : DateTime) (graceSecs : UInt64) (view : Nat → Disk) :
    Nat → List SnapshotRow → List (SnapshotRow × Verdict)
  | _, []        => []
  | k, r :: rows => (r, classify r finals (view k) ground now graceSecs) :: plan finals ground now graceSecs view (k + 1) rows

end Reconcile

/-! ## One pass -/

/-- Counts from one pass. -/
structure ReconcileSummary where
  ranAtUnix     : Int64
  snapshot      : Option Path
  total         : UInt32
  complete      : UInt32
  inFlight      : UInt32
  staleInFlight : UInt32
  queued        : UInt32
  tooRecent     : UInt32
  goneOnPayload : UInt32
  sizeMismatch  : UInt32
  missing       : UInt32
  requested     : UInt32
  deriving DecidableEq, Repr

namespace ReconcileSummary

def default : ReconcileSummary := ⟨0, none, 0, 0, 0, 0, 0, 0, 0, 0, 0, 0⟩

def count (s : ReconcileSummary) : Verdict → ReconcileSummary
  | .complete         => { s with complete := s.complete + 1 }
  | .sizeMismatch _ _ => { s with sizeMismatch := s.sizeMismatch + 1 }
  | .inFlight stale   =>
    { s with inFlight := s.inFlight + 1, staleInFlight := if stale then s.staleInFlight + 1 else s.staleInFlight }
  | .queued           => { s with queued := s.queued + 1 }
  | .tooRecent        => { s with tooRecent := s.tooRecent + 1 }
  | .goneOnPayload    => { s with goneOnPayload := s.goneOnPayload + 1 }
  | .missing          => { s with missing := s.missing + 1 }

def fromPlan (plan : List (SnapshotRow × Verdict)) : ReconcileSummary :=
  plan.foldl (fun s rv => s.count rv.2) { default with total := UInt32.ofNat plan.length }

end ReconcileSummary

/-- What survives a restart. -/
structure ReconcileState where
  lastRunUnix : Option Int64
  requested   : List (FileId × Int64)
  lastSummary : Option ReconcileSummary

namespace Reconciler

/-- The request for a file lost whole: all of it, at the back of the queue. -/
def resend (id : FileId) : SenderRequest := .enqueue id (-1) 0 false

/-- What the loop over a plan leaves: the requests it made with their replies, the memory, and whom it asked. -/
structure Asked (σ : Type) where
  asked     : List (SenderRequest × Reply)
  requested : List (FileId × Int64)
  env       : σ

def requestLoop {σ : Type} (call : σ → SenderRequest → Reply × σ) (reachable : Bool) (now : Int64) :
    List (SnapshotRow × Verdict) → List (FileId × Int64) → σ → Asked σ
  | [], requested, env                    => ⟨[], requested, env⟩
  | (row, verdict) :: plan, requested, env =>
    if verdict ≠ .missing then requestLoop call reachable now plan requested env
    else if reachable = false then requestLoop call reachable now plan requested env
    else if (requested.lookup row.fileId).isSome then requestLoop call reachable now plan requested env
    else
      let (reply, env) := call env (resend row.fileId)
      let requested := if reply = .ok then (row.fileId, now) :: requested else requested
      let rest := requestLoop call reachable now plan requested env
      { rest with asked := (resend row.fileId, reply) :: rest.asked }

/-- What a pass leaves. -/
structure Pass (σ : Type) where
  summary : Except Error ReconcileSummary
  state   : ReconcileState
  asked   : List (SenderRequest × Reply)
  env     : σ

/-- `run`.  `found` is the newest snapshot with its rows, `listed` the disk whose holding directory is listed, `ages` what
`age_secs` answers, `status` the sender's status. -/
def run {σ : Type} (cfg : LiveConfig) (call : σ → SenderRequest → Reply × σ) (finals : Path)
    (found : Option (Path × Except Error (List SnapshotRow))) (listed : Disk) (ages : FileId → Option UInt64)
    (status : Option (List SenderQueueSnapshot)) (view : Nat → Disk) (now : DateTime) (st : ReconcileState) (env : σ) :
    Pass σ :=
  let c := cfg.current.cleaner
  let ts := Reconcile.timestamp now
  let st := { st with lastRunUnix := some ts }
  let summary := { ReconcileSummary.default with ranAtUnix := ts }
  match found with
  | none                  => ⟨.ok summary, { st with lastSummary := some summary }, [], env⟩
  | some (_, .error e)    => ⟨.error e, st, [], env⟩
  | some (snap, .ok rows) =>
    let inFlight := (Reassembler.inFlight listed).map (fun id => (id, (ages id).getD 0))
    let pending := status.map (fun ss => ss.map SenderQueueSnapshot.fileId)
    let plan := Reconcile.plan finals ⟨inFlight, pending⟩ now c.reconcileGraceSecs view 0 rows
    let period := c.reconcilePeriodSecs.toInt64
    let requested := st.requested.filter (fun e => ts - e.2 < period)
    let out := requestLoop call pending.isSome ts plan requested env
    let oks := out.asked.countP (fun q => q.2 = .ok)
    let summary := { ReconcileSummary.fromPlan plan with
      ranAtUnix := ts, snapshot := some snap, requested := UInt32.ofNat oks }
    ⟨.ok summary, { st with requested := out.requested, lastSummary := some summary }, out.asked, out.env⟩

end Reconciler

/-! ## What is called missing -/

/-- There is a file at the path. -/
def Disk.Landed (q : Path) (d : Disk) : Prop := ∃ b, d.node q = some (.file b)

theorem Reconcile.getElem?_plan (finals : Path) (ground : GroundState) (now : DateTime) (graceSecs : UInt64)
    (view : Nat → Disk) : ∀ (rows : List SnapshotRow) (k j : Nat),
      (plan finals ground now graceSecs view k rows)[j]? =
        rows[j]?.map (fun r => (r, classify r finals (view (k + j)) ground now graceSecs))
  | [], _, _            => rfl
  | _ :: _, _, 0        => rfl
  | _ :: rows, k, j + 1 => by
    show (plan finals ground now graceSecs view (k + 1) rows)[j]? = _
    rw [getElem?_plan finals ground now graceSecs view rows (k + 1) j, Nat.add_right_comm]
    rfl

/-- **A row is called missing when all three looks miss its file**, it is still on the payload and not recent. -/
theorem Reconcile.classify_missing_iff {row : SnapshotRow} {finals : Path} {d : Disk} {ground : GroundState}
    {now : DateTime} {graceSecs : UInt64} : classify row finals d ground now graceSecs = .missing ↔
      ¬ d.Landed (groundPath finals row.fileName) ∧ ground.inFlight.lookup row.fileId = none ∧
      ground.senderPending.any (fun p => p.contains row.fileId) = false ∧ row.stillExists = true ∧
      isRecent row now graceSecs = false := by
  have habsent : classifyAbsent row ground now graceSecs = .missing ↔ ground.inFlight.lookup row.fileId = none ∧
      ground.senderPending.any (fun p => p.contains row.fileId) = false ∧ row.stillExists = true ∧
      isRecent row now graceSecs = false := by
    unfold classifyAbsent
    cases ground.inFlight.lookup row.fileId with
    | some age => simp
    | none =>
      cases ground.senderPending.any (fun p => p.contains row.fileId) <;> cases row.stillExists <;>
        cases isRecent row now graceSecs <;> simp
  unfold classify Disk.Landed
  split
  · rename_i b hb
    refine ⟨fun h => ?_, fun h => absurd ⟨b, hb⟩ h.1⟩
    split at h <;> cases h
  · rename_i hno
    rw [habsent]
    exact ⟨fun h => ⟨fun ⟨b, hb⟩ => hno b hb, h⟩, fun h => h.2⟩

/-- What the reconciler gathers before it plans. -/
def Reconciler.observed (listed : Disk) (ages : FileId → Option UInt64) (status : Option (List SenderQueueSnapshot)) :
    GroundState where
  inFlight := (Reassembler.inFlight listed).map (fun id => (id, (ages id).getD 0))
  senderPending := status.map (fun ss => ss.map SenderQueueSnapshot.fileId)

theorem Reconciler.lookup_observed {listed : Disk} {ages : FileId → Option UInt64}
    {status : Option (List SenderQueueSnapshot)} {id : FileId} :
    (observed listed ages status).inFlight.lookup id = none ↔ listed.get (.manifest id) = none := by
  rw [← not_iff_not]
  show _ ≠ none ↔ _ ≠ none
  rw [← Option.isSome_iff_ne_none, List.lookup_isSome_iff, ← Reassembler.mem_inFlight]
  constructor
  · rintro ⟨p, hp, heq⟩
    obtain ⟨id', hid, rfl⟩ := List.mem_map.1 hp
    rw [eq_of_beq heq]
    exact hid
  · intro h
    exact ⟨_, List.mem_map_of_mem h, beq_self_eq_true id⟩

theorem Reconcile.mem_plan {finals : Path} {ground : GroundState} {now : DateTime} {graceSecs : UInt64} {view : Nat → Disk}
    {rv : SnapshotRow × Verdict} {rows : List SnapshotRow} {k : Nat} (h : rv ∈ plan finals ground now graceSecs view k rows) :
    ∃ j, rv.2 = classify rv.1 finals (view j) ground now graceSecs := by
  obtain ⟨j, hj⟩ := List.mem_iff_getElem?.1 h
  rw [getElem?_plan] at hj
  obtain ⟨r, -, rfl⟩ := Option.map_eq_some_iff.1 hj
  exact ⟨k + j, rfl⟩

namespace Reconciler

/-- **Only files called missing are asked for.** -/
theorem mem_requestLoop {σ : Type} {call : σ → SenderRequest → Reply × σ} {reachable : Bool} {now : Int64}
    {q : SenderRequest × Reply} : ∀ {plan : List (SnapshotRow × Verdict)} {requested : List (FileId × Int64)} {env : σ},
      q ∈ (requestLoop call reachable now plan requested env).asked →
      ∃ row, (row, Verdict.missing) ∈ plan ∧ q.1 = resend row.fileId
  | [], _, _, h                            => by cases h
  | (row, verdict) :: plan, requested, env, h => by
    have hskip : ∀ {requested : List (FileId × Int64)} {env : σ}, q ∈ (requestLoop call reachable now plan requested env).asked →
        ∃ row', (row', Verdict.missing) ∈ (row, verdict) :: plan ∧ q.1 = resend row'.fileId := by
      intro requested env h
      obtain ⟨row', hmem, hq⟩ := mem_requestLoop h
      exact ⟨row', List.mem_cons_of_mem _ hmem, hq⟩
    unfold requestLoop at h
    split at h
    · exact hskip h
    rename_i hv
    rw [not_not] at hv
    split at h
    · exact hskip h
    split at h
    · exact hskip h
    dsimp only at h
    rcases List.mem_cons.1 h with rfl | h
    · exact ⟨row, by rw [hv]; exact List.mem_cons_self, rfl⟩
    · exact hskip h

/-- **A pass asks for nothing that is in flight.** -/
theorem not_asked_inFlight {σ : Type} {cfg : LiveConfig} {call : σ → SenderRequest → Reply × σ} {finals : Path}
    {found : Option (Path × Except Error (List SnapshotRow))} {listed : Disk} {ages : FileId → Option UInt64}
    {status : Option (List SenderQueueSnapshot)} {view : Nat → Disk} {now : DateTime} {st : ReconcileState} {env : σ}
    {id : FileId} (h : id ∈ Reassembler.inFlight listed) :
    ∀ q ∈ (run cfg call finals found listed ages status view now st env).asked, q.1 ≠ resend id := by
  intro q hq heq
  unfold run at hq
  dsimp only at hq
  split at hq
  · cases hq
  · cases hq
  · obtain ⟨row, hrow, hq'⟩ := mem_requestLoop hq
    obtain ⟨j, hj⟩ := Reconcile.mem_plan hrow
    rw [heq] at hq'
    have hid : id = row.fileId := by
      unfold resend at hq'
      cases hq'
      rfl
    obtain ⟨-, hnone, -⟩ := Reconcile.classify_missing_iff.1 hj.symm
    rw [← hid] at hnone
    exact Reassembler.mem_inFlight.1 h (lookup_observed.1 hnone)

end Reconciler

end Parachuter
