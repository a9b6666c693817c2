import Parachuter.Operations
import Parachuter.Reconcile
/-!
# Moving — a reconciliation pass against a file on its way

A pass lists the holding directory, asks the sender for its queue and then looks for every row's copy, while the sender
sends and the receiver ingests and finalises.  A copy in the final directory stays there, and a file's packets only leave
the queue; but the two are looked at last and in the middle, and the assembly between them first.  So a file that goes
from the queue into holding after the listing, and is still there when its row is checked, is seen nowhere.
-/
namespace Parachuter

open Blob (Bytes)

/-! ## The two daemons and the link between them -/

/-- What the sender handed over is on the link until the receiver takes it.  `finalizing` is the assembly the receiver
found complete and has still to finalise. -/
structure World where
  rt         : SenderRuntime
  link       : List Bytes
  disk       : Disk
  finalizing : Option FileId

/-- The link loses nothing and may reorder: an ingest is of any datagram on it. -/
inductive WorldStep
  | sendNext (payload : Payload)
  | ingest (k : Nat)
  | finalize

namespace WorldStep

/-- The receiver is one loop: it ingests nothing while there is something to finalise. -/
def apply (crc : Bytes → UInt32) (finals : Path) (w : World) : WorldStep → World
  | .sendNext payload =>
    let out := w.rt.sendNext crc payload
    { w with rt := out.rt, link := w.link ++ out.datagram.toList }
  | .ingest k =>
    match w.finalizing, w.link[k]? with
    | none, some datagram =>
      let w := { w with link := w.link.eraseIdx k }
      match Packet.decode crc (datagram.take MAX_CHUNK_SIZE) with
      | .error _ => w
      | .ok pkt  =>
        match (Reassembler.ingest crc pkt).exec w.disk with
        | (.ok .complete, d) => { w with disk := d, finalizing := some pkt.fileId }
        | (_, d)             => { w with disk := d }
    | _, _ => w
  | .finalize =>
    match w.finalizing with
    | none    => w
    | some id => { w with disk := ((Reassembler.finalize crc finals id).exec w.disk).2, finalizing := none }

def run (crc : Bytes → UInt32) (finals : Path) (w : World) (steps : List WorldStep) : World :=
  steps.foldl (apply crc finals) w

end WorldStep

/-! ## Where a file is -/

/-- Anything of the file is queued. -/
def PacketQueue.HasFile (q : PacketQueue) (id : FileId) : Prop := ∃ item ∈ q.items, item.fileId = id

namespace World

def Queued (w : World) (row : SnapshotRow) : Prop := w.rt.queue.HasFile row.fileId

def Held (w : World) (row : SnapshotRow) : Prop := w.disk.get (.manifest row.fileId) ≠ none

def Landed (finals : Path) (w : World) (row : SnapshotRow) : Prop := w.disk.Landed (groundPath finals row.fileName)

/-- In the queue, in holding or in the final directory. -/
def Somewhere (finals : Path) (w : World) (row : SnapshotRow) : Prop :=
  w.Queued row ∨ w.Held row ∨ w.Landed finals row

end World

theorem PacketQueue.mem_addToSnapshot {item : WorkItem} {id : FileId} : ∀ {ss : List SenderQueueSnapshot},
    id ∈ (addToSnapshot item ss).map SenderQueueSnapshot.fileId ↔
      item.fileId = id ∨ id ∈ ss.map SenderQueueSnapshot.fileId
  | []      => by simp [addToSnapshot, eq_comm]
  | s :: ss => by
    unfold addToSnapshot
    split
    · rename_i h
      simp [h, eq_comm]
    · split
      · simp [eq_comm]
      · rw [List.map_cons, List.mem_cons, mem_addToSnapshot, List.map_cons, List.mem_cons]
        exact or_left_comm

/-- **The status names the files with anything queued.** -/
theorem PacketQueue.mem_snapshot {q : PacketQueue} {id : FileId} :
    id ∈ q.snapshot.map SenderQueueSnapshot.fileId ↔ q.HasFile id := by
  have hfold : ∀ (items : List WorkItem) (ss : List SenderQueueSnapshot),
      id ∈ (items.foldl (fun ss item => addToSnapshot item ss) ss).map SenderQueueSnapshot.fileId ↔
        (∃ item ∈ items, item.fileId = id) ∨ id ∈ ss.map SenderQueueSnapshot.fileId := by
    intro items
    induction items with
    | nil => simp
    | cons item items ih =>
      intro ss
      rw [List.foldl_cons, ih, mem_addToSnapshot, List.exists_mem_cons_iff, ← or_assoc]
      exact or_congr_left or_comm
  unfold snapshot HasFile
  rw [hfold]
  simp

/-- Where a copy is, a copy stays: no call takes a file out of the final directory. -/
theorem Disk.Landed.sem {q : Path} (c : FsCall) (d : Disk) (h : d.Landed q) : (FsCall.sem c d).2.Landed q := by
  obtain ⟨b, hb⟩ := h
  have hput : ∀ (dest : Path) (b' : Bytes), (d.putFile dest b').Landed q := by
    intro dest b'
    by_cases hq : q = dest
    · subst hq
      exact ⟨b', Disk.node_putFile_self d q b'⟩
    · exact ⟨b, by rw [Disk.node_putFile_ne d b' hq]; exact hb⟩
  cases c with
  | createDirAll p =>
    simp only [FsCall.sem]
    split
    · exact ⟨b, hb⟩
    · rename_i hfree
      refine ⟨b, ?_⟩
      rw [Disk.node_mkdirs, if_neg, hb]
      intro hq
      refine hfree (List.any_eq_true.2 ⟨q, hq, ?_⟩)
      unfold Disk.isFile
      rw [hb]
  | rename f dest =>
    simp only [FsCall.sem]
    split
    · exact ⟨b, hb⟩
    · split
      · exact hput _ _
      · exact ⟨b, hb⟩
  | copy f dest =>
    simp only [FsCall.sem]
    split
    · exact ⟨b, hb⟩
    · split
      · exact hput _ _
      · exact ⟨b, hb⟩
  | _ =>
    simp only [FsCall.sem]
    repeat' split
    all_goals exact ⟨b, hb⟩

namespace WorldStep

variable {crc : Bytes → UInt32} {finals : Path} {w : World} {row : SnapshotRow}

theorem landed_apply (h : w.Landed finals row) (e : WorldStep) : (apply crc finals w e).Landed finals row := by
  cases e with
  | sendNext payload => exact h
  | ingest k =>
    simp only [apply]
    split
    · split
      · exact h
      · rename_i pkt _
        have hd : ((Reassembler.ingest crc pkt).exec w.disk).2.Landed (groundPath finals row.fileName) :=
          Calls.exec_keeps Disk.Landed.sem _ h
        split
        · rename_i d heq
          rw [heq] at hd
          exact hd
        · rename_i heq
          rw [heq] at hd
          exact hd
    · exact h
  | finalize =>
    simp only [apply]
    split
    · exact h
    · exact Calls.exec_keeps Disk.Landed.sem _ h

theorem rt_apply (e : WorldStep) (h : ∀ payload, e ≠ .sendNext payload) : (apply crc finals w e).rt = w.rt := by
  cases e with
  | sendNext payload => exact absurd rfl (h payload)
  | ingest k =>
    simp only [apply]
    repeat' split
    all_goals rfl
  | finalize =>
    simp only [apply]
    split <;> rfl

/-- **A send puts no file on the queue.** -/
theorem not_queued_apply (h : ¬ w.Queued row) (e : WorldStep) : ¬ (apply crc finals w e).Queued row := by
  by_cases hsend : ∃ payload, e = .sendNext payload
  · obtain ⟨payload, rfl⟩ := hsend
    have hother : w.rt.Queued (fun _ _ item => item.fileId ≠ row.fileId) := fun item hi heq => h ⟨item, hi, heq⟩
    rintro ⟨item, hi, heq⟩
    refine hother.sendNext ⟨fun _ hne => hne, fun _ hne => hne, fun _ hne => hne⟩ crc payload item hi heq
  · unfold World.Queued
    rw [rt_apply e (fun payload heq => hsend ⟨payload, heq⟩)]
    exact h

end WorldStep

/-! ## A pass among the steps -/

/-- Where the reconciler's looks fall among the daemons' steps: the listing before all of them, the sender's answer, if it
answers, after `statusAt`, the check of the `j`-th row after `checkAt j`. -/
structure ReconcilePass where
  steps       : List WorldStep
  answers     : Bool
  statusAt    : Nat
  checkAt     : Nat → Nat
  statusFirst : statusAt ≤ checkAt 0
  checkNext   : ∀ j, checkAt j ≤ checkAt (j + 1)
  checkLast   : ∀ j, checkAt j ≤ steps.length

namespace ReconcilePass

section

variable (crc : Bytes → UInt32) (finals : Path) (w₀ : World) (ph : ReconcilePass)

/-- The world after `k` steps of the pass. -/
def moment (k : Nat) : World := WorldStep.run crc finals w₀ (ph.steps.take k)

/-- What the sender answers. -/
def status : Option (List SenderQueueSnapshot) :=
  if ph.answers then some (ph.moment crc finals w₀ ph.statusAt).rt.queue.snapshot else none

def plan (cfg : LiveConfig) (ages : FileId → Option UInt64) (now : DateTime) (rows : List SnapshotRow) :
    List (SnapshotRow × Verdict) :=
  Reconcile.plan finals (Reconciler.observed w₀.disk ages (ph.status crc finals w₀)) now
    cfg.current.cleaner.reconcileGraceSecs (fun j => (ph.moment crc finals w₀ (ph.checkAt j)).disk) 0 rows

/-- The `k`-th step of the pass is a send that takes the last of the file's packets off the queue. -/
def TakesLast (row : SnapshotRow) (k : Nat) : Prop :=
  (∃ payload, ph.steps[k]? = some (.sendNext payload)) ∧ (ph.moment crc finals w₀ k).Queued row ∧
    ¬ (ph.moment crc finals w₀ (k + 1)).Queued row

end

theorem asked_run {σ : Type} (crc : Bytes → UInt32) (finals : Path) (w₀ : World) (ph : ReconcilePass) (cfg : LiveConfig)
    (call : σ → SenderRequest → Reply × σ) (snap : Path) (rows : List SnapshotRow) (ages : FileId → Option UInt64)
    (now : DateTime) (st : ReconcileState) (env : σ) :
    (Reconciler.run cfg call finals (some (snap, .ok rows)) w₀.disk ages (ph.status crc finals w₀)
      (fun j => (ph.moment crc finals w₀ (ph.checkAt j)).disk) now st env).asked =
    (Reconciler.requestLoop call (ph.status crc finals w₀).isSome (Reconcile.timestamp now)
      (ph.plan crc finals w₀ cfg ages now rows)
      (st.requested.filter (fun e => Reconcile.timestamp now - e.2 < cfg.current.cleaner.reconcilePeriodSecs.toInt64))
      env).asked := by
  unfold Reconciler.run
  dsimp only
  rw [Option.isSome_map]
  rfl

variable {crc : Bytes → UInt32} {finals : Path} {w₀ : World} {ph : ReconcilePass} {row : SnapshotRow}

theorem moment_succ {k : Nat} {e : WorldStep} (he : ph.steps[k]? = some e) :
    ph.moment crc finals w₀ (k + 1) = e.apply crc finals (ph.moment crc finals w₀ k) := by
  unfold moment WorldStep.run
  rw [List.take_add_one, he, List.foldl_append]
  rfl

theorem moment_past {k : Nat} (he : ph.steps[k]? = none) :
    ph.moment crc finals w₀ (k + 1) = ph.moment crc finals w₀ k := by
  unfold moment
  rw [List.take_add_one, he, Option.toList_none, List.append_nil]

/-- What every step keeps stays true through the pass. -/
theorem stays {P : World → Prop} (hP : ∀ w e, P w → P (WorldStep.apply crc finals w e)) {j k : Nat} (hjk : j ≤ k)
    (h : P (ph.moment crc finals w₀ j)) : P (ph.moment crc finals w₀ k) := by
  induction hjk with
  | refl => exact h
  | step _ ih =>
    rename_i k _
    cases he : ph.steps[k]? with
    | none => rw [moment_past he]; exact ih
    | some e => rw [moment_succ he]; exact hP _ e ih

/-- **A file leaves the queue by a send that takes its last packet.** -/
theorem queued_iff (h₀ : w₀.Queued row) (s : Nat) : (ph.moment crc finals w₀ s).Queued row ↔
    ∀ k < s, ¬ ph.TakesLast crc finals w₀ row k := by
  have hgone : ∀ {j k : Nat}, j ≤ k → ¬ (ph.moment crc finals w₀ j).Queued row →
      ¬ (ph.moment crc finals w₀ k).Queued row :=
    fun hjk h => @stays crc finals w₀ ph (fun w => ¬ w.Queued row) (fun w e hw => WorldStep.not_queued_apply hw e) _ _ hjk h
  constructor
  · rintro hs k hk ⟨-, -, hlast⟩
    exact hgone hk hlast hs
  · induction s with
    | zero => exact fun _ => h₀
    | succ s ih =>
      intro hno
      have hs := ih (fun k hk => hno k (Nat.lt_succ_of_lt hk))
      by_contra hlast
      refine hno s (Nat.lt_succ_self s) ⟨?_, hs, hlast⟩
      -- any other step would have left the queue as it was
      by_contra hsend
      refine hlast ?_
      unfold World.Queued
      cases he : ph.steps[s]? with
      | none => rw [moment_past he]; exact hs
      | some e =>
        rw [moment_succ he, WorldStep.rt_apply e (fun payload heq => hsend ⟨payload, by rw [he, heq]⟩)]
        exact hs

end ReconcilePass

/-! ## What is called missing -/

namespace ReconcilePass

variable {crc : Bytes → UInt32} {finals : Path} {w₀ : World} {ph : ReconcilePass} {row : SnapshotRow}

theorem pending_iff {ages : FileId → Option UInt64} :
    (Reconciler.observed w₀.disk ages (ph.status crc finals w₀)).senderPending.any (fun p => p.contains row.fileId) = true ↔
      ph.answers = true ∧ (ph.moment crc finals w₀ ph.statusAt).Queued row := by
  unfold World.Queued
  rw [← PacketQueue.mem_snapshot]
  unfold Reconciler.observed status
  cases ph.answers with
  | false => simp
  | true => simp

/-- **The verdict on a row, look by look.** -/
theorem missing_iff {cfg : LiveConfig} {ages : FileId → Option UInt64} {now : DateTime} {rows : List SnapshotRow} {j : Nat}
    (hrow : rows[j]? = some row) : (ph.plan crc finals w₀ cfg ages now rows)[j]? = some (row, .missing) ↔
      ¬ (ph.moment crc finals w₀ (ph.checkAt j)).Landed finals row ∧ ¬ w₀.Held row ∧
      ¬ (ph.answers = true ∧ (ph.moment crc finals w₀ ph.statusAt).Queued row) ∧ row.stillExists = true ∧
      Reconcile.isRecent row now cfg.current.cleaner.reconcileGraceSecs = false := by
  unfold plan
  rw [Reconcile.getElem?_plan, hrow, Option.map_some, Option.some.injEq, Prod.mk.injEq, Nat.zero_add,
    Reconcile.classify_missing_iff, Reconciler.lookup_observed, ← Bool.not_eq_true, pending_iff]
  unfold World.Landed World.Held
  rw [not_not]
  exact ⟨fun h => h.2, fun h => ⟨rfl, h⟩⟩

theorem plan_one {cfg : LiveConfig} {ages : FileId → Option UInt64} {now : DateTime} {v : Verdict}
    (h : (ph.plan crc finals w₀ cfg ages now [row])[0]? = some (row, v)) :
    ph.plan crc finals w₀ cfg ages now [row] = [(row, v)] := by
  simp only [plan, Reconcile.plan, List.getElem?_cons_zero, Option.some.injEq] at h ⊢
  rw [h]

end ReconcilePass

/-- **When a pass does not call a moving file missing.**  The file is in the queue, in holding or in the final directory
at every moment of the pass.  It is not called missing exactly when it was in holding at the listing, or is in the final
directory at its check, or is gone from the payload or recent, or the sender answers and no send between the listing and
the answer takes the last of the file's packets off the queue. -/
theorem moving_not_missing_iff (crc : Bytes → UInt32) (finals : Path) (w₀ : World) (ph : ReconcilePass) (cfg : LiveConfig)
    (ages : FileId → Option UInt64) (now : DateTime) (rows : List SnapshotRow) (j : Nat) (row : SnapshotRow)
    (hrow : rows[j]? = some row)
    (hthere : ∀ k ≤ ph.steps.length, (ph.moment crc finals w₀ k).Somewhere finals row) :
    (ph.plan crc finals w₀ cfg ages now rows)[j]? ≠ some (row, .missing) ↔
      w₀.Held row ∨ (ph.moment crc finals w₀ (ph.checkAt j)).Landed finals row ∨ row.stillExists = false ∨
      Reconcile.isRecent row now cfg.current.cleaner.reconcileGraceSecs = true ∨
      ph.answers = true ∧ ∀ k < ph.statusAt, ¬ ph.TakesLast crc finals w₀ row k := by
  rw [ne_eq, ReconcilePass.missing_iff hrow]
  by_cases hheld : w₀.Held row
  · simp [hheld]
  by_cases hlanded : (ph.moment crc finals w₀ (ph.checkAt j)).Landed finals row
  · simp [hlanded]
  -- not in holding at the start and not landed by the check, the file starts in the queue
  have hqueued : w₀.Queued row := by
    rcases hthere 0 (Nat.zero_le _) with h | h | h
    · exact h
    · exact absurd h hheld
    · exact absurd (ReconcilePass.stays (P := fun w => w.Landed finals row) (fun w e hw => WorldStep.landed_apply hw e)
        (Nat.zero_le (ph.checkAt j)) h) hlanded
  rw [← ReconcilePass.queued_iff hqueued ph.statusAt]
  cases row.stillExists <;> cases Reconcile.isRecent row now cfg.current.cleaner.reconcileGraceSecs <;>
    simp [hheld, hlanded]

namespace Forty

/-- The file is queued as a manifest and two chunks, and the ground is empty. -/
def world : World where
  rt := SenderOp.run crc32 start [setChunkSize 64, submit]
  link := []
  disk := Disk.fresh [] true
  finalizing := none

/-- Its row, sent down after it was queued. -/
def row : SnapshotRow := ⟨1, "/a".toList, 40, some 0, true, some 0⟩

/-- The whole file goes over; the sender answers after `s` steps, and the row is checked with the last chunk on the link. -/
def movingPass (s : Nat) (hs : s ≤ 5) : ReconcilePass where
  steps := [.sendNext (.ideal files), .ingest 0, .sendNext (.ideal files), .ingest 0, .sendNext (.ideal files), .ingest 0,
    .finalize]
  answers := true
  statusAt := s
  checkAt _ := 5
  statusFirst := hs
  checkNext _ := Nat.le_refl 5
  checkLast _ := by decide

/-- It is queued up to the third send, in holding from the first ingest on, and landed in the end. -/
theorem somewhere (s : Nat) (hs : s ≤ 5) :
    ∀ k ≤ (movingPass s hs).steps.length, ((movingPass s hs).moment crc32 [] world k).Somewhere [] row := by
  have hq : ∀ k ≤ 4, (WorldStep.run crc32 [] world ((movingPass 0 (by decide)).steps.take k)).Queued row := by
    simp only [World.Queued, PacketQueue.HasFile]
    decide +kernel
  have hh : ∀ k ≤ 6, 2 ≤ k → (WorldStep.run crc32 [] world ((movingPass 0 (by decide)).steps.take k)).Held row := by
    simp only [World.Held]
    decide +kernel
  have hl : (WorldStep.run crc32 [] world ((movingPass 0 (by decide)).steps.take 7)).Landed [] row :=
    ⟨List.replicate 40 0, by decide +kernel⟩
  intro k hk
  by_cases h4 : k ≤ 4
  · exact .inl (hq k h4)
  by_cases h6 : k ≤ 6
  · exact .inr (.inl (hh k h6 (by omega)))
  · have hlen : (movingPass s hs).steps.length = 7 := rfl
    obtain rfl : k = 7 := by omega
    exact .inr (.inr hl)

end Forty

/-- A sender that answers before it sends: the file is seen in its queue. -/
theorem moving_not_missing_asked_first :
    ((Forty.movingPass 0 (by decide)).plan crc32 [] Forty.world .default (fun _ => none) (10 ^ 15) [Forty.row])[0]? ≠
      some (Forty.row, .missing) :=
  (moving_not_missing_iff crc32 [] Forty.world (Forty.movingPass 0 (by decide)) .default (fun _ => none) (10 ^ 15)
    [Forty.row] 0 Forty.row rfl (Forty.somewhere 0 (by decide))).2
      (.inr (.inr (.inr (.inr ⟨rfl, fun k hk => absurd hk (Nat.not_lt_zero k)⟩))))

/-- **The file moves from the queue into holding between the listing and the sender's answer**: it is called missing, and
asked for again, with one chunk to go. -/
theorem moving_called_missing :
    let ph := Forty.movingPass 5 (Nat.le_refl 5)
    (∀ k ≤ ph.steps.length, (ph.moment crc32 [] Forty.world k).Somewhere [] Forty.row) ∧
    (ph.plan crc32 [] Forty.world .default (fun _ => none) (10 ^ 15) [Forty.row])[0]? = some (Forty.row, .missing) ∧
    (Reconciler.run .default (fun (u : Unit) _ => (.ok, u)) [] (some ([], .ok [Forty.row])) Forty.world.disk (fun _ => none)
      (ph.status crc32 [] Forty.world) (fun j => (ph.moment crc32 [] Forty.world (ph.checkAt j)).disk) (10 ^ 15)
      ⟨none, [], none⟩ ()).asked = [(Reconciler.resend 1, .ok)] := by
  intro ph
  have hmissing : (ph.plan crc32 [] Forty.world .default (fun _ => none) (10 ^ 15) [Forty.row])[0]? =
      some (Forty.row, .missing) := by
    refine (ReconcilePass.missing_iff rfl).2 ⟨?_, ?_, ?_, rfl, by decide +kernel⟩
    · rintro ⟨b, hb⟩
      have hnone : (ph.moment crc32 [] Forty.world 5).disk.node (groundPath [] Forty.row.fileName) = none := by
        decide +kernel
      rw [show ph.checkAt 0 = 5 from rfl, hnone] at hb
      cases hb
    · exact not_not.2 rfl
    · rintro ⟨-, item, hi, -⟩
      have hempty : (ph.moment crc32 [] Forty.world 5).rt.queue.items = [] := by decide +kernel
      rw [show ph.statusAt = 5 from rfl, hempty] at hi
      cases hi
  have hplan : ph.plan crc32 [] Forty.world .default (fun _ => none) (10 ^ 15) [Forty.row] = [(Forty.row, .missing)] :=
    ReconcilePass.plan_one hmissing
  refine ⟨Forty.somewhere 5 (Nat.le_refl 5), hmissing, ?_⟩
  rw [ReconcilePass.asked_run, hplan]
  rfl

end Parachuter
