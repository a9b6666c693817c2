import Parachuter.Daemon
import Parachuter.Datagram
import Parachuter.Lib.Births
/-!
# Modes — what a sender sends, by the state it is in (`sender/state.rs`)

The main loop takes the runtime's lock twice in a turn: to send, and, if nothing was sent, to look for work and write the
status file.  Requests and reloads come before, between and after.  A paused sender sends nothing; in every other state
what is sent was asked for, by a request that was accepted or by a scan of the directories of the state, and since the last
flush or change of state that empties the queue (`sent_was_asked`).  The scans and the status files are apart by their
periods (`jobs_spaced`).
-/
namespace Parachuter

open Blob (Bytes)
open SenderRuntime (Turn)

/-! ## The main loop -/

/-- Which lock the loop takes next; it is over when one of its jobs fails, or is held for ever by the limiter. -/
inductive TurnPhase
  | sending
  | topping
  | over
  deriving DecidableEq, Repr

/-- After `send_next`. -/
def TurnPhase.afterSend : Except SenderRuntime.Halt Bool → TurnPhase
  | .ok true  => .sending
  | .ok false => .topping
  | .error _  => .over

structure SenderLoop where
  rt    : SenderRuntime
  phase : TurnPhase

/-- The operations that come as requests. -/
def SenderOp.IsRequest : SenderOp → Prop
  | .submit .. | .enqueue .. | .resendName .. | .applyOverride .. | .setState .. | .flush => True
  | .scanForWork .. | .sendNext .. | .reload .. | .stamp ..                               => False

inductive SenderEvent
  | request (op : SenderOp) (isRequest : op.IsRequest)
  | reload (cfg : LiveConfig)
  | sendJob (payload : Payload)
  | topUpJob (t : Turn)

namespace SenderLoop

def start (cfg : LiveConfig) (ledger : Ledger) (now : Int) (nowSecs : ℚ) : SenderLoop :=
  ⟨.new cfg ledger now nowSecs, .sending⟩

variable (crc : Bytes → UInt32)

/-- The first half of a turn. -/
def sendJob (l : SenderLoop) (payload : Payload) : SenderLoop :=
  let out := l.rt.sendNext crc payload
  ⟨out.rt, .afterSend out.result⟩

/-- The second half. -/
def topUpJob (l : SenderLoop) (t : Turn) : SenderLoop :=
  match SenderRuntime.topUp t l.rt with
  | (.error _, rt) => ⟨rt, .over⟩
  | (.ok (), rt)   =>
    match SenderRuntime.dumpStatus t rt with
    | (.error _, rt) => ⟨rt, .over⟩
    | (.ok (), rt)   => ⟨rt, .sending⟩

def apply (l : SenderLoop) : SenderEvent → SenderLoop
  | .request op _    => { l with rt := op.apply crc l.rt }
  | .reload cfg      => { l with rt := { l.rt with cfg := cfg } }
  | .sendJob payload => if l.phase = .sending then l.sendJob crc payload else l
  | .topUpJob t      => if l.phase = .topping then l.topUpJob t else l

def run (l : SenderLoop) (es : List SenderEvent) : SenderLoop := es.foldl (apply crc) l

/-- What an event hands to the link. -/
def datagram (l : SenderLoop) : SenderEvent → Option Bytes
  | .sendJob payload => if l.phase = .sending then (l.rt.sendNext crc payload).datagram else none
  | _                => none

/-- **Both halves with nothing in between are one turn.** -/
theorem turn_eq_tick (rt : SenderRuntime) (t : Turn) :
    let l := run crc ⟨rt, .sending⟩ [.sendJob t.payload, .topUpJob t]
    l.rt = (rt.tick crc t).rt ∧ (l.phase = .sending ↔ ∃ sent, (rt.tick crc t).result = .ok sent) := by
  intro l
  have hl : l = apply crc (sendJob crc ⟨rt, .sending⟩ t.payload) (.topUpJob t) := rfl
  rw [hl]
  cases hsent : (rt.sendNext crc t.payload).result with
  | error e =>
    rw [SenderRuntime.tick_failed hsent]
    simp [apply, sendJob, hsent, TurnPhase.afterSend]
  | ok sent =>
    cases sent with
    | true =>
      rw [SenderRuntime.tick_sent hsent]
      simp [apply, sendJob, hsent, TurnPhase.afterSend]
    | false =>
      have hphase : (sendJob crc ⟨rt, .sending⟩ t.payload).phase = .topping := by
        simp [sendJob, hsent, TurnPhase.afterSend]
      simp only [apply, hphase, if_true, topUpJob, SenderRuntime.tick, hsent]
      have hrt : (sendJob crc ⟨rt, .sending⟩ t.payload).rt = (rt.sendNext crc t.payload).rt := rfl
      rw [hrt]
      cases SenderRuntime.topUp t (rt.sendNext crc t.payload).rt with
      | mk r rt' =>
        cases r with
        | error e => exact ⟨rfl, by simp⟩
        | ok u =>
          dsimp only
          cases SenderRuntime.dumpStatus t rt' with
          | mk r rt' => cases r <;> exact ⟨rfl, by simp⟩

end SenderLoop

/-! ## Where the work came from -/

/-- The work is for a file of one of these names. -/
def Among (names : Set Text) : ItemCond := fun l _ item => ∃ r, l.get item.fileId = some r ∧ r.fileName ∈ names

theorem among_stable (names : Set Text) : (Among names).Stable where
  mono := by
    rintro l l' c item hl ⟨r, hr, hn⟩
    obtain ⟨r', hr', hname, -⟩ := hl _ r hr
    exact ⟨r', hr', by rw [hname]; exact hn⟩
  data _ h := h
  retransmit _ h := h

namespace SenderRuntime

variable {crc : Bytes → UInt32} {rt : SenderRuntime} {t : Turn} {ns : Set Text}

/-- The names of the files there is work for. -/
def workNames (rt : SenderRuntime) : Set Text :=
  {name | ∃ item ∈ rt.queue.items, ∃ r, rt.ledger.get item.fileId = some r ∧ r.fileName = name}

theorem workNames_subset (h : rt.Queued (Among ns)) : rt.workNames ⊆ ns := by
  rintro _ ⟨item, hi, r, hr, rfl⟩
  obtain ⟨r', hr', hn⟩ := h item hi
  rw [hr] at hr'
  cases hr'
  exact hn

theorem Wf.among (h : rt.Wf) (hn : rt.workNames ⊆ ns) : rt.Queued (Among ns) := by
  intro item hi
  obtain ⟨r, hr, -⟩ := h.known item hi
  exact ⟨r, hr, hn ⟨item, hi, r, hr, rfl⟩⟩

theorem workNames_of_queue_nil (h : rt.queue.items = []) : rt.workNames = ∅ := by
  simp [workNames, h]

/-- A request is for the file of this name, and is accepted. -/
def Asks (rt : SenderRuntime) : SenderOp → Text → Prop
  | .submit metadata cwd path interrupt utc, name =>
    (∃ ack, (rt.submit metadata cwd path interrupt utc).1 = .ok ack) ∧ name = absolute cwd path
  | .enqueue fileId start count interrupt utc, name =>
    (rt.enqueue fileId start count interrupt utc).1 = .ok () ∧ ∃ r, rt.ledger.get fileId = some r ∧ r.fileName = name
  | .resendName fileId, name => ∃ r, rt.ledger.get fileId = some r ∧ r.fileName = name
  | _, _                     => False

/-- A scan is due, and the file of this name, which no row had, was found in one of the directories of the state. -/
structure Takes (t : Turn) (rt : SenderRuntime) (name : Text) : Prop where
  due   : ScanDue t rt
  isNew : rt.ledger.getByName name = none
  found : ∃ k, ∃ dir ∈ rt.scanDirs, name ∈ (t.view k dir).walk

/-- **A request brings in work for the file it is for**, if it is accepted. -/
theorem workNames_request (crc : Bytes → UInt32) (h : rt.Wf) {op : SenderOp} (hop : op.IsRequest) :
    (op.apply crc rt).workNames ⊆ rt.workNames ∪ {name | rt.Asks op name} := by
  have hold : rt.workNames ⊆ rt.workNames ∪ {name | rt.Asks op name} := Set.subset_union_left
  have hrow : ∀ {id : FileId} {rec : FileRecord}, rt.ledger.get id = some rec → rt.ledger.get rec.fileId = some rec :=
    fun hrec => by rw [(Ledger.mem_of_get hrec).2]; exact hrec
  have hstable := among_stable (rt.workNames ∪ {name | rt.Asks op name})
  have hq := h.among hold
  cases op with
  | submit metadata cwd path interrupt utc =>
    rcases hres : rt.submit metadata cwd path interrupt utc with ⟨e | ack, rt'⟩
    · have hsame : (SenderOp.submit metadata cwd path interrupt utc).apply crc rt = rt := by
        rw [SenderOp.apply, hres]
        exact ControlAdapter.submit_error hres
      rw [hsame]
      exact hold
    · refine workNames_subset (hq.submit hstable metadata cwd path interrupt utc (fun info _ _ l id r hr hname => ?_))
      have hasked : r.fileName ∈ {name | rt.Asks (.submit metadata cwd path interrupt utc) name} :=
        ⟨⟨ack, by rw [hres]⟩, hname⟩
      exact ⟨⟨r, hr, .inr hasked⟩, ⟨r, hr, .inr hasked⟩⟩
  | enqueue fileId start count interrupt utc =>
    rcases hres : rt.enqueue fileId start count interrupt utc with ⟨e | u, rt'⟩
    · have hsame : (SenderOp.enqueue fileId start count interrupt utc).apply crc rt = rt := by
        rw [SenderOp.apply, hres]
        exact ControlAdapter.enqueue_error hres
      rw [hsame]
      exact hold
    · have hasked : ∀ {rec : FileRecord}, rt.ledger.get fileId = some rec →
          rec.fileName ∈ {name | rt.Asks (.enqueue fileId start count interrupt utc) name} :=
        fun hrec => ⟨by rw [hres], _, hrec, rfl⟩
      refine workNames_subset (hq.enqueue hstable start count interrupt utc (fun _ rec hrec => ?_) (fun rec hrec s _ => ?_))
      · exact ⟨⟨rec, hrow hrec, .inr (hasked hrec)⟩, ⟨rec, hrow hrec, .inr (hasked hrec)⟩⟩
      · exact ⟨rec, hrow hrec, .inr (hasked hrec)⟩
  | resendName fileId =>
    refine workNames_subset (hq.resendName (fun rec hrec => ⟨rec, hrow hrec, .inr ?_⟩))
    exact ⟨rec, hrec, rfl⟩
  | applyOverride o => exact workNames_subset (hq.applyOverride o (fun c _ _ _ item hi => hq item hi))
  | setState new => exact workNames_subset (hq.setState new)
  | flush => exact workNames_subset (Queued.clear rt)
  | scanForWork view utc => exact hop.elim
  | sendNext payload => exact hop.elim
  | reload cfg => exact hop.elim
  | stamp lastRecheck lastStatusDump => exact hop.elim

/-- **A scan brings in work for the file it takes.** -/
theorem workNames_topUp (h : rt.Wf) : (topUp t rt).2.workNames ⊆ rt.workNames ∪ {name | Takes t rt name} := by
  have hold : rt.workNames ⊆ rt.workNames ∪ {name | Takes t rt name} := Set.subset_union_left
  unfold topUp
  by_cases hdue : ScanDue t rt
  · have hdue' := hdue
    unfold ScanDue at hdue'
    rw [if_pos hdue']
    have hq : Queued (Among (rt.workNames ∪ {name | Takes t rt name})) { rt with lastRecheck := t.now } := h.among hold
    refine workNames_subset (hq.scanForWork (among_stable _) t.view t.utc (fun c hc l id r hr hname => ?_))
    obtain ⟨hnew, k, dir, hdir, hentry, -⟩ := Scanner.nextCandidate_some hc
    have htaken : r.fileName ∈ {name | Takes t rt name} := by
      rw [hname]
      exact ⟨hdue, hnew, k, dir, hdir, (Scanner.mem_entries.1 hentry).1⟩
    exact ⟨⟨r, hr, .inr htaken⟩, ⟨r, hr, .inr htaken⟩⟩
  · have hdue' := hdue
    unfold ScanDue at hdue'
    rw [if_neg hdue']
    exact hold

theorem workNames_dumpStatus (t : Turn) (rt : SenderRuntime) : (dumpStatus t rt).2.workNames = rt.workNames := by
  unfold dumpStatus
  split <;> rfl

theorem workNames_sendNext (crc : Bytes → UInt32) (payload : Payload) (h : rt.Wf) :
    (rt.sendNext crc payload).rt.workNames ⊆ rt.workNames :=
  workNames_subset ((h.among (Set.Subset.refl _)).sendNext (among_stable _) crc payload)

/-- **What `send_next` hands over** is of the item it takes, and a paused sender takes none. -/
theorem sendNext_item {payload : Payload} {b : Bytes} (h : b ∈ (rt.sendNext crc payload).datagram) :
    rt.state ≠ .paused ∧ ∃ item ∈ rt.queue.items, ∃ pkt : Packet, b = pkt.encode crc ∧ pkt.fileId = item.fileId := by
  rcases sendNext_cases crc payload rt with heq | ⟨item, items, hs, hq, heq⟩
  · rw [heq] at h
    cases h
  refine ⟨hs, item, by rw [hq]; exact List.mem_cons_self, ?_⟩
  rw [heq] at h
  cases item with
  | manifest id name =>
    simp only [sendItem, sendManifest] at h
    split at h
    · cases h
    · rename_i chunker hopen
      obtain ⟨file, -, rfl⟩ := Chunker.open_ok hopen
      exact ⟨_, emit_datagram h, rfl⟩
  | data id range =>
    obtain ⟨rec, chunker, pkt, hopen, hpkt, rfl⟩ := sendRange_datagram h
    obtain ⟨file, -, rfl⟩ := Chunker.open_ok hopen
    exact ⟨pkt, rfl, (Chunker.carries_dataPacket hpkt).fileId⟩
  | retransmit id range =>
    obtain ⟨rec, chunker, pkt, hopen, hpkt, rfl⟩ := sendRange_datagram h
    obtain ⟨file, -, rfl⟩ := Chunker.open_ok hopen
    exact ⟨pkt, rfl, (Chunker.carries_retransmitPacket hpkt).fileId⟩

end SenderRuntime

/-- A flush, or a change of state that empties the queue. -/
def SenderEvent.Clears : SenderEvent → Prop
  | .request .flush _          => True
  | .request (.setState new) _ => new ≠ .auto
  | _                          => False

namespace SenderLoop

variable {crc : Bytes → UInt32} {l : SenderLoop}

/-- An accepted request for the file of this name. -/
def Asked (l : SenderLoop) (name : Text) : SenderEvent → Prop
  | .request op _ => l.rt.Asks op name
  | _             => False

/-- A scan that takes the file of this name. -/
def Scanned (l : SenderLoop) (name : Text) : SenderEvent → Prop
  | .topUpJob t => l.phase = .topping ∧ l.rt.Takes t name
  | _           => False

theorem topUpJob_rt (l : SenderLoop) (t : Turn) : (l.topUpJob t).rt = (SenderRuntime.topUp t l.rt).2 ∨
    (l.topUpJob t).rt = (SenderRuntime.dumpStatus t (SenderRuntime.topUp t l.rt).2).2 := by
  unfold topUpJob
  split
  · rename_i htop
    exact .inl (by rw [htop])
  · rename_i htop
    rw [htop]
    split <;> (rename_i hdump; exact .inr (by rw [hdump]))

theorem workNames_topUpJob (h : l.rt.Wf) (t : Turn) :
    (l.topUpJob t).rt.workNames ⊆ l.rt.workNames ∪ {name | l.rt.Takes t name} := by
  rcases l.topUpJob_rt t with heq | heq
  · rw [heq]
    exact SenderRuntime.workNames_topUp h
  · rw [heq, SenderRuntime.workNames_dumpStatus]
    exact SenderRuntime.workNames_topUp h

/-- The operations that leave the state of the sender alone. -/
def LeaveState (ops : List SenderOp) : Prop := ∀ op ∈ ops, op.OnQueue ∨ (∃ r d, op = .stamp r d) ∨ ∃ cfg, op = .reload cfg

/-- The second half of a turn is a scan and two time stamps, each of them or not. -/
theorem topUpJob_ops (crc : Bytes → UInt32) (l : SenderLoop) (t : Turn) :
    ∃ ops, (l.topUpJob t).rt = SenderOp.run crc l.rt ops ∧ LeaveState ops := by
  have htop : ∃ ops, (SenderRuntime.topUp t l.rt).2 = SenderOp.run crc l.rt ops ∧ LeaveState ops := by
    unfold SenderRuntime.topUp
    split
    · refine ⟨[.stamp t.now l.rt.lastStatusDump, .scanForWork t.view t.utc], rfl, ?_⟩
      simp [LeaveState, SenderOp.OnQueue]
    · exact ⟨[], rfl, by simp [LeaveState]⟩
  obtain ⟨ops, hops, hall⟩ := htop
  rcases l.topUpJob_rt t with heq | heq
  · exact ⟨ops, by rw [heq, hops], hall⟩
  rw [heq]
  unfold SenderRuntime.dumpStatus
  split
  · refine ⟨ops ++ [.stamp (SenderRuntime.topUp t l.rt).2.lastRecheck t.now], ?_, ?_⟩
    · have hrun : SenderOp.run crc l.rt (ops ++ [.stamp (SenderRuntime.topUp t l.rt).2.lastRecheck t.now]) =
          (SenderOp.stamp (SenderRuntime.topUp t l.rt).2.lastRecheck t.now).apply crc (SenderOp.run crc l.rt ops) :=
        List.foldl_append
      rw [hrun, ← hops]
      rfl
    · intro op hop
      rcases List.mem_append.1 hop with hop | hop
      · exact hall op hop
      · rw [List.mem_singleton.1 hop]
        exact .inr (.inl ⟨_, _, rfl⟩)
  · exact ⟨ops, hops, hall⟩

/-- **An event does to the runtime what some operations do**: its own, if it is a request. -/
theorem apply_ops (crc : Bytes → UInt32) (l : SenderLoop) (e : SenderEvent) :
    ∃ ops, (apply crc l e).rt = SenderOp.run crc l.rt ops ∧ ((∃ op h, e = .request op h ∧ ops = [op]) ∨ LeaveState ops) := by
  cases e with
  | request op hop => exact ⟨[op], rfl, .inl ⟨op, hop, rfl, rfl⟩⟩
  | reload cfg => exact ⟨[.reload cfg], rfl, .inr (by simp [LeaveState])⟩
  | sendJob payload =>
    simp only [apply]
    split
    · exact ⟨[.sendNext payload], rfl, .inr (by simp [LeaveState, SenderOp.OnQueue])⟩
    · exact ⟨[], rfl, .inr (by simp [LeaveState])⟩
  | topUpJob t =>
    simp only [apply]
    split
    · obtain ⟨ops, heq, hall⟩ := topUpJob_ops crc l t
      exact ⟨ops, heq, .inr hall⟩
    · exact ⟨[], rfl, .inr (by simp [LeaveState])⟩

theorem wf_apply (h : l.rt.Wf) (e : SenderEvent) : (apply crc l e).rt.Wf := by
  obtain ⟨ops, heq, -⟩ := apply_ops crc l e
  rw [heq]
  exact SenderRuntime.Wf.run crc ops h

theorem state_ops (crc : Bytes → UInt32) : ∀ (ops : List SenderOp) (rt : SenderRuntime), LeaveState ops →
    (SenderOp.run crc rt ops).state = rt.state
  | [], _, _          => rfl
  | op :: ops, rt, hall => by
    have hlater := state_ops crc ops (op.apply crc rt) (fun op' h => hall op' (List.mem_cons_of_mem _ h))
    rcases hall op List.mem_cons_self with hop | ⟨r, d, rfl⟩ | ⟨cfg, rfl⟩
    · obtain ⟨ledger, queue, rateLimiter, heq⟩ := SenderRuntime.apply_leaves crc rt hop
      rw [heq] at hlater
      rw [SenderOp.run, List.foldl_cons, heq]
      exact hlater
    · exact hlater
    · exact hlater

/-- **Only a change of state changes the state**, and one that does not empty the queue changes it to auto. -/
theorem state_apply (crc : Bytes → UInt32) (l : SenderLoop) {e : SenderEvent} (he : ¬ e.Clears) :
    (apply crc l e).rt.state = l.rt.state ∨ (apply crc l e).rt.state = .auto := by
  obtain ⟨ops, heq, ⟨op, hop, rfl, rfl⟩ | hall⟩ := apply_ops crc l e
  · cases op with
    | setState new =>
      have hnew : new = .auto := by simpa [SenderEvent.Clears] using he
      exact .inr (by rw [hnew]; rfl)
    | applyOverride o =>
      left
      show (l.rt.applyOverride o).2.state = _
      unfold SenderRuntime.applyOverride
      split
      · rfl
      · dsimp only
        split <;> rfl
    | scanForWork view utc => exact hop.elim
    | sendNext payload => exact hop.elim
    | reload cfg => exact hop.elim
    | stamp lastRecheck lastStatusDump => exact hop.elim
    | _ =>
      rw [heq]
      exact .inl (state_ops crc _ _ (by simp [LeaveState, SenderOp.OnQueue]))
  · rw [heq]
    exact .inl (state_ops crc ops l.rt hall)

theorem state_run (crc : Bytes → UInt32) : ∀ (es : List SenderEvent) (l : SenderLoop), (∀ e ∈ es, ¬ e.Clears) →
    (run crc l es).rt.state = l.rt.state ∨ (run crc l es).rt.state = .auto
  | [], _, _          => .inl rfl
  | e :: es, l, hnone => by
    have hfirst := state_apply crc l (hnone e List.mem_cons_self)
    have hlater := state_run crc es (apply crc l e) (fun e' he' => hnone e' (List.mem_cons_of_mem _ he'))
    exact hlater.elim (fun heq => hfirst.imp heq.trans heq.trans) .inr

/-- **What there is work for was asked for or scanned**, since the queue was last emptied. -/
def work (crc : Bytes → UInt32) : Births.Holding Text (apply crc) where
  inv l      := l.rt.Wf
  held l     := l.rt.workNames
  starts l e := {name | l.Asked name e ∨ l.Scanned name e}
  clears e   := e.Clears
  keeps e h  := wf_apply h e
  grows {l} e h := by
    cases e with
    | request op hop => exact (SenderRuntime.workNames_request crc h hop).trans (Set.union_subset_union_right _ (fun _ => .inl))
    | reload cfg => exact Set.subset_union_left
    | sendJob payload =>
      simp only [apply]
      split
      · exact (SenderRuntime.workNames_sendNext crc payload h).trans Set.subset_union_left
      · exact Set.subset_union_left
    | topUpJob t =>
      simp only [apply]
      split
      · rename_i hphase
        exact (workNames_topUpJob h t).trans (Set.union_subset_union_right _ (fun _ hn => .inr ⟨hphase, hn⟩))
      · exact Set.subset_union_left
  cleared {l e} h hc := by
    have hnone : (apply crc l e).rt.queue.items = [] → (apply crc l e).rt.workNames ⊆ {name | l.Asked name e ∨ l.Scanned name e} := by
      intro hq
      rw [SenderRuntime.workNames_of_queue_nil hq]
      exact Set.empty_subset _
    cases e with
    | request op hop =>
      cases op with
      | flush => exact hnone (PacketQueue.clear_items _)
      | setState new =>
        cases new with
        | auto => exact absurd rfl hc
        | manual => exact hnone (PacketQueue.clear_items _)
        | paused => exact hnone (PacketQueue.clear_items _)
        | debug => exact hnone (PacketQueue.clear_items _)
      | _ => exact hc.elim
    | _ => exact hc.elim

end SenderLoop

/-- **Nothing is sent that was not asked for.**  Whatever is requested of a sender and whatever its scans find, a datagram is
sent only by a sender that is not paused, and its file was asked for by an accepted request, or taken by a scan, since the
queue was last emptied.  The scan was made in auto, and the sender still is, or it was made in debug, of the directories for
debug, and the sender is in debug or in auto. -/
theorem sent_was_asked (crc : Bytes → UInt32) (cfg : LiveConfig) (ledger : Ledger) (now : Int) (nowSecs : ℚ)
    (es : List SenderEvent) (last : SenderEvent) (b : Bytes)
    (hb : b ∈ (SenderLoop.run crc (.start cfg ledger now nowSecs) es).datagram crc last) :
    let l := SenderLoop.run crc (.start cfg ledger now nowSecs) es
    l.rt.state ≠ .paused ∧
    ∃ pkt r, b = Packet.encode crc pkt ∧ l.rt.ledger.get pkt.fileId = some r ∧
    ∃ pre e post, es = pre ++ e :: post ∧ (∀ e' ∈ post, ¬ e'.Clears) ∧
      let l₀ := SenderLoop.run crc (.start cfg ledger now nowSecs) pre
      (l₀.Asked r.fileName e ∨
        l₀.Scanned r.fileName e ∧ ((l₀.rt.state = .auto ∧ l.rt.state = .auto) ∨
          (l₀.rt.state = .debug ∧ (l.rt.state = .debug ∨ l.rt.state = .auto) ∧
            ∃ t k, e = .topUpJob t ∧ ∃ dir ∈ l₀.rt.cfg.current.sender.priorityDirsDebug, r.fileName ∈ (t.view k dir).walk))) := by
  intro l
  have hstart : (SenderLoop.start cfg ledger now nowSecs).rt.Wf := SenderRuntime.Wf.new cfg ledger now nowSecs
  have hwf : l.rt.Wf := (SenderLoop.work crc).inv_run hstart es
  cases last with
  | request op hop => cases hb
  | reload cfg' => cases hb
  | topUpJob t => cases hb
  | sendJob payload =>
    simp only [SenderLoop.datagram] at hb
    split at hb
    case isFalse => cases hb
    obtain ⟨hpaused, item, hitem, pkt, hpkt, hid⟩ := SenderRuntime.sendNext_item hb
    obtain ⟨r, hr, -⟩ := hwf.known item hitem
    have hheld : r.fileName ∈ (SenderLoop.work crc).held (es.foldl (SenderLoop.apply crc) (.start cfg ledger now nowSecs)) :=
      ⟨item, hitem, r, hr, rfl⟩
    refine ⟨hpaused, pkt, r, hpkt, by rw [hid]; exact hr, ?_⟩
    rcases (SenderLoop.work crc).born hstart es hheld with ⟨⟨i, hi, -⟩, -⟩ | ⟨pre, e, post, hes, hstarts, hnone⟩
    · cases hi
    refine ⟨pre, e, post, hes, hnone, ?_⟩
    rcases hstarts with hasked | hscanned
    · exact .inl hasked
    refine .inr ⟨hscanned, ?_⟩
    -- from the scan on, nothing emptied the queue, so the state is the one of the scan or auto
    have hl : l = SenderLoop.run crc (SenderLoop.apply crc (SenderLoop.run crc (.start cfg ledger now nowSecs) pre) e) post := by
      show SenderLoop.run crc (.start cfg ledger now nowSecs) es = _
      rw [hes, SenderLoop.run, List.foldl_append]
      rfl
    cases e with
    | topUpJob t =>
      obtain ⟨-, hdue, -, k, dir, hdir, hwalk⟩ := hscanned
      have hstate := SenderLoop.state_run crc (.topUpJob t :: post) (SenderLoop.run crc (.start cfg ledger now nowSecs) pre)
        (by
          intro e' he'
          rcases List.mem_cons.1 he' with rfl | he'
          · exact fun h => h
          · exact hnone e' he')
      rw [hl]
      rcases hdue.1 with hauto | hdebug
      · exact .inl ⟨hauto, hstate.elim (fun h => h.trans hauto) id⟩
      · refine .inr ⟨hdebug, hstate.imp_left (fun h => h.trans hdebug), t, k, rfl, dir, ?_, hwalk⟩
        rw [SenderRuntime.scanDirs, if_pos hdebug] at hdir
        exact hdir
    | _ => exact hscanned.elim

/-- A file is submitted to a sender in manual, and its name is what is sent first. -/
theorem sent_was_asked_submitted :
    let l := SenderLoop.run crc32 (.start .default .empty 0 0) [.request (.setState .manual) trivial, .request Forty.submit trivial]
    ∃ b ∈ l.datagram crc32 (.sendJob (.ideal Forty.files)), ∃ pkt r, b = Packet.encode crc32 pkt ∧
      l.rt.ledger.get pkt.fileId = some r := by
  intro l
  have hsome : (l.datagram crc32 (.sendJob (.ideal Forty.files))).isSome = true := by decide +kernel
  obtain ⟨b, hb⟩ := Option.isSome_iff_exists.1 hsome
  obtain ⟨-, pkt, r, hpkt, hr, -⟩ := sent_was_asked crc32 .default .empty 0 0
    [.request (.setState .manual) trivial, .request Forty.submit trivial] (.sendJob (.ideal Forty.files)) b hb
  exact ⟨b, hb, pkt, r, hpkt, hr⟩

/-! ## The periods of the loop's jobs -/

namespace SenderLoop

variable {crc : Bytes → UInt32} {l : SenderLoop} {t : Turn}

/-- The event makes a scan. -/
def Scanning (l : SenderLoop) (t : Turn) : Prop := l.phase = .topping ∧ SenderRuntime.ScanDue t l.rt

/-- The event writes the status file. -/
def Dumping (l : SenderLoop) (t : Turn) : Prop :=
  l.phase = .topping ∧ (∃ rt, SenderRuntime.topUp t l.rt = (.ok (), rt)) ∧
    l.rt.cfg.current.sender.statusDumpPeriodSecs.toNat ≤ elapsedSecs t.now l.rt.lastStatusDump

theorem leaves_scanForWork (rt : SenderRuntime) (view : Nat → Text → DirView) (utc : DateTime) : ∃ ledger queue rateLimiter,
    (rt.scanForWork view utc).2 = { rt with ledger := ledger, queue := queue, rateLimiter := rateLimiter } :=
  @SenderRuntime.apply_leaves (fun _ => 0) rt (.scanForWork view utc) trivial

/-- What the first job leaves of the settings and of the clocks. -/
theorem topUp_clocks (t : Turn) (rt : SenderRuntime) :
    (SenderRuntime.topUp t rt).2.cfg = rt.cfg ∧ (SenderRuntime.topUp t rt).2.lastStatusDump = rt.lastStatusDump ∧
    (SenderRuntime.ScanDue t rt → (SenderRuntime.topUp t rt).2.lastRecheck = t.now) ∧
    (¬ SenderRuntime.ScanDue t rt → (SenderRuntime.topUp t rt).2.lastRecheck = rt.lastRecheck) := by
  unfold SenderRuntime.topUp
  by_cases hdue : SenderRuntime.ScanDue t rt
  · obtain ⟨ledger, queue, rateLimiter, heq⟩ := leaves_scanForWork { rt with lastRecheck := t.now } t.view t.utc
    have hdue' := hdue
    unfold SenderRuntime.ScanDue at hdue'
    rw [if_pos hdue', heq]
    exact ⟨rfl, rfl, fun _ => rfl, fun h => absurd hdue h⟩
  · have hdue' := hdue
    unfold SenderRuntime.ScanDue at hdue'
    rw [if_neg hdue']
    exact ⟨rfl, rfl, fun h => absurd h hdue, fun _ => rfl⟩

theorem dumpStatus_clocks (t : Turn) (rt : SenderRuntime) : (SenderRuntime.dumpStatus t rt).2.lastRecheck = rt.lastRecheck ∧
    ((SenderRuntime.dumpStatus t rt).2.lastStatusDump = t.now ∨
      (SenderRuntime.dumpStatus t rt).2.lastStatusDump = rt.lastStatusDump) := by
  unfold SenderRuntime.dumpStatus
  split
  · exact ⟨rfl, .inl rfl⟩
  · exact ⟨rfl, .inr rfl⟩

theorem request_clocks (crc : Bytes → UInt32) (rt : SenderRuntime) {op : SenderOp} (hop : op.IsRequest) :
    (op.apply crc rt).lastRecheck = rt.lastRecheck ∧ (op.apply crc rt).lastStatusDump = rt.lastStatusDump := by
  have hqueue : op.OnQueue →
      (op.apply crc rt).lastRecheck = rt.lastRecheck ∧ (op.apply crc rt).lastStatusDump = rt.lastStatusDump := by
    intro h
    obtain ⟨ledger, queue, rateLimiter, heq⟩ := SenderRuntime.apply_leaves crc rt h
    rw [heq]
    exact ⟨rfl, rfl⟩
  cases op with
  | setState new => cases new <;> exact ⟨rfl, rfl⟩
  | applyOverride o =>
    simp only [SenderOp.apply, SenderRuntime.applyOverride]
    split
    · exact ⟨rfl, rfl⟩
    · split <;> exact ⟨rfl, rfl⟩
  | reload cfg => exact hop.elim
  | stamp lastRecheck lastStatusDump => exact hop.elim
  | _ => exact hqueue trivial

/-- **An event leaves each of the two clocks as it is, or sets it to its own time.** -/
theorem clocks_apply (crc : Bytes → UInt32) (l : SenderLoop) (e : SenderEvent) :
    ((apply crc l e).rt.lastRecheck = l.rt.lastRecheck ∨ ∃ t, e = .topUpJob t ∧ (apply crc l e).rt.lastRecheck = t.now) ∧
    ((apply crc l e).rt.lastStatusDump = l.rt.lastStatusDump ∨
      ∃ t, e = .topUpJob t ∧ (apply crc l e).rt.lastStatusDump = t.now) := by
  cases e with
  | request op hop =>
    obtain ⟨hr, hd⟩ := request_clocks crc l.rt hop
    exact ⟨.inl hr, .inl hd⟩
  | reload cfg => exact ⟨.inl rfl, .inl rfl⟩
  | sendJob payload =>
    simp only [apply]
    split
    · obtain ⟨ledger, queue, rateLimiter, heq, -⟩ := SenderRuntime.sendNext_leaves crc payload l.rt
      simp [sendJob, heq]
    · exact ⟨.inl rfl, .inl rfl⟩
  | topUpJob t =>
    simp only [apply]
    split
    · obtain ⟨-, hdump, hdue, hnot⟩ := topUp_clocks t l.rt
      obtain ⟨hrecheck, hset⟩ := dumpStatus_clocks t (SenderRuntime.topUp t l.rt).2
      have hfirst : (SenderRuntime.topUp t l.rt).2.lastRecheck = l.rt.lastRecheck ∨
          (SenderRuntime.topUp t l.rt).2.lastRecheck = t.now := by
        by_cases h : SenderRuntime.ScanDue t l.rt
        · exact .inr (hdue h)
        · exact .inl (hnot h)
      rcases l.topUpJob_rt t with heq | heq
      · rw [heq, hdump]
        exact ⟨hfirst.imp_right (fun h => ⟨t, rfl, h⟩), .inl rfl⟩
      · rw [heq, hrecheck]
        refine ⟨hfirst.imp_right (fun h => ⟨t, rfl, h⟩), ?_⟩
        rcases hset with h | h
        · exact .inr ⟨t, rfl, h⟩
        · exact .inl (h.trans hdump)
    · exact ⟨.inl rfl, .inl rfl⟩

/-- **Along a run whose clock does not go back**, neither clock does. -/
theorem clocks_run (crc : Bytes → UInt32) {n : Int} : ∀ (es : List SenderEvent) (l : SenderLoop),
    (∀ t, SenderEvent.topUpJob t ∈ es → n ≤ t.now) →
    (n ≤ l.rt.lastRecheck → n ≤ (run crc l es).rt.lastRecheck) ∧
    (n ≤ l.rt.lastStatusDump → n ≤ (run crc l es).rt.lastStatusDump)
  | [], _, _           => ⟨id, id⟩
  | e :: es, l, htimes => by
    obtain ⟨hr, hd⟩ := clocks_run crc es (apply crc l e) (fun t ht => htimes t (List.mem_cons_of_mem _ ht))
    obtain ⟨hr₀, hd₀⟩ := clocks_apply crc l e
    refine ⟨fun h => hr ?_, fun h => hd ?_⟩
    · rcases hr₀ with heq | ⟨t, rfl, heq⟩
      · rw [heq]
        exact h
      · rw [heq]
        exact htimes t List.mem_cons_self
    · rcases hd₀ with heq | ⟨t, rfl, heq⟩
      · rw [heq]
        exact h
      · rw [heq]
        exact htimes t List.mem_cons_self

theorem Scanning.sets (h : l.Scanning t) : (apply crc l (.topUpJob t)).rt.lastRecheck = t.now := by
  have hset := (topUp_clocks t l.rt).2.2.1 h.2
  simp only [apply, h.1, if_true]
  rcases l.topUpJob_rt t with heq | heq
  · rw [heq, hset]
  · rw [heq, (dumpStatus_clocks t _).1, hset]

theorem Dumping.sets (h : l.Dumping t) : (apply crc l (.topUpJob t)).rt.lastStatusDump = t.now := by
  obtain ⟨hphase, ⟨rt, htop⟩, hdue⟩ := h
  obtain ⟨hcfg, hdump, -⟩ := topUp_clocks t l.rt
  rw [htop] at hcfg hdump
  have hset : (SenderRuntime.dumpStatus t rt).2.lastStatusDump = t.now := by
    unfold SenderRuntime.dumpStatus
    rw [hcfg, hdump, if_pos hdue]
  simp only [apply, hphase, if_true, topUpJob, htop]
  split <;> (rename_i heq; rw [heq] at hset; exact hset)

end SenderLoop

theorem le_of_elapsedSecs {period : Nat} {now last n : Int} (h : period ≤ elapsedSecs now last) (hlast : n ≤ last)
    (hn : n ≤ now) : n + (period * SECOND : Nat) ≤ now := by
  have hle := Nat.mul_le_of_le_div _ _ _ h
  omega

/-- **The loop's jobs are apart by their periods.**  Whatever is requested in between, and however the configuration changes,
a scan comes no sooner after another scan than the recheck period then in force says, and a status file no sooner after
another than the period for these. -/
theorem jobs_spaced (crc : Bytes → UInt32) (l : SenderLoop) (t t' : Turn) (mid : List SenderEvent)
    (hclock : t.now ≤ t'.now ∧ ∀ u, SenderEvent.topUpJob u ∈ mid → t.now ≤ u.now) :
    let l' := SenderLoop.run crc l (.topUpJob t :: mid)
    (l.Scanning t → l'.Scanning t' → t.now + (l'.rt.cfg.current.sender.recheckPeriodSecs.toNat * SECOND : Nat) ≤ t'.now) ∧
    (l.Dumping t → l'.Dumping t' → t.now + (l'.rt.cfg.current.sender.statusDumpPeriodSecs.toNat * SECOND : Nat) ≤ t'.now) := by
  intro l'
  obtain ⟨hrecheck, hdump⟩ := SenderLoop.clocks_run crc mid (SenderLoop.apply crc l (.topUpJob t)) hclock.2
  refine ⟨fun h h' => ?_, fun h h' => ?_⟩
  · exact le_of_elapsedSecs h'.2.2 (hrecheck (by rw [h.sets])) hclock.1
  · exact le_of_elapsedSecs h'.2.2 (hdump (by rw [h.sets])) hclock.1

/-- A turn with nothing to find. -/
def idleTurn (now : Int) : Turn := ⟨.ideal Forty.files, fun _ _ => ⟨[], fun _ => false, fun _ => none, fun _ => none⟩, now, 0, .ok ()⟩

theorem jobs_spaced_idle :
    let l : SenderLoop := ⟨.new .default .empty (7200 * SECOND) 0, .topping⟩
    let l' := SenderLoop.run crc32 l [.topUpJob (idleTurn (7200 * SECOND)), .sendJob (.ideal Forty.files)]
    l.Scanning (idleTurn (7200 * SECOND)) ∧ l'.Scanning (idleTurn (7300 * SECOND)) ∧
      l'.rt.cfg.current.sender.recheckPeriodSecs.toNat * SECOND ≤ 100 * SECOND := by
  intro l l'
  have hfirst : l.Scanning (idleTurn (7200 * SECOND)) := ⟨rfl, by decide, by decide⟩
  have hsecond : l'.Scanning (idleTurn (7300 * SECOND)) := ⟨by decide +kernel, by decide +kernel, by decide +kernel⟩
  have hapart : (7200 * SECOND : Int) + (l'.rt.cfg.current.sender.recheckPeriodSecs.toNat * SECOND : Nat) ≤ 7300 * SECOND :=
    (jobs_spaced crc32 l (idleTurn (7200 * SECOND)) (idleTurn (7300 * SECOND)) [.sendJob (.ideal Forty.files)]
      ⟨by decide, by simp⟩).1 hfirst hsecond
  refine ⟨hfirst, hsecond, ?_⟩
  unfold SECOND at hapart ⊢
  omega

end Parachuter
