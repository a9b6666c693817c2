import Parachuter.Control
import Parachuter.Restarts
/-!
# The cleaner's main loop and its control socket (`cleaner/mod.rs`)

The loop makes a pass, looks whether the reconciler is due or asked for, and sleeps until the period is over or an
operator wakes it.  The two `Notify` are a permit each: a request sets it, the `select!` that takes it clears it, and it
stays while nobody takes it.  A `CleanerMove` is one thing the loop does, at the phase it belongs to and nowhere else; the
requests come between the moves.  A status asked for in the middle of a reconciliation waits for it; here it may also
come before.
-/
namespace Parachuter

open Blob (Bytes)

/-- When the next scheduled pass is due: at once, if there was none. -/
def ReconcileState.nextDueUnix (st : ReconcileState) (periodSecs : UInt64) : Int64 :=
  match st.lastRunUnix with
  | some t => t + periodSecs.toInt64
  | none   => 0

inductive LoopPhase
  | passing
  | checking
  | reconciling
  | sleeping
  deriving DecidableEq, Repr

/-- The branch of the `select!` that ends the sleep. -/
inductive Wake
  | period
  | runNow
  | reconcileNow
  deriving DecidableEq, Repr

structure CleanerDaemon where
  phase          : LoopPhase
  forceReconcile : Bool
  runNow         : Bool
  reconcileNow   : Bool
  world          : CleanerWorld
  live           : LiveConfig
  activeLink     : String

/-- `passed none` is a pass that fails before it asks for anything. -/
inductive CleanerMove (σ : Type)
  | passed (pass : Option (Cleaner.PassInput σ × Option Nat))
  | check (now : DateTime) (nowInRange : -CHRONO_SECS ≤ secs now ∧ secs now < CHRONO_SECS)
  | reconciled (x : AnsweredPass σ) (saved : Bool)
  | wake (w : Wake)
  | reload (cfg : LiveConfig)
  | stop (r : Restart) (cfg : LiveConfig)
  | stopInPass (x : Cleaner.PassInput σ) (k : Nat) (r : Restart) (cfg : LiveConfig)
  | stopInReconcile (x : AnsweredPass σ) (k : Nat) (r : Restart) (cfg : LiveConfig)

namespace CleanerDaemon

/-- The loop at its first pass. -/
def start (world : CleanerWorld) (cfg : LiveConfig) : CleanerDaemon :=
  ⟨.passing, false, false, false, world, cfg, cfg.current.cleaner.activeLink⟩

/-- The reconciler's period is over. -/
def Due (d : CleanerDaemon) (now : DateTime) : Prop :=
  d.world.whole.state.nextDueUnix d.live.current.cleaner.reconcilePeriodSecs ≤ Reconcile.timestamp now

instance (d : CleanerDaemon) (now : DateTime) : Decidable (d.Due now) := inferInstanceAs (Decidable (_ ≤ _))

/-- The `if` of the loop: when it is due the request is left for the next time. -/
def check (d : CleanerDaemon) (now : DateTime) : CleanerDaemon :=
  if d.Due now then { d with phase := .reconciling }
  else if d.forceReconcile then { d with phase := .reconciling, forceReconcile := false }
  else { d with phase := .sleeping }

def wake (d : CleanerDaemon) : Wake → CleanerDaemon
  | .period       => { d with phase := .passing }
  | .runNow       => if d.runNow then { d with phase := .passing, runNow := false } else d
  | .reconcileNow =>
    if d.reconcileNow then { d with phase := .passing, reconcileNow := false, forceReconcile := true } else d

end CleanerDaemon

namespace CleanerMove

variable {σ : Type} (crc : Bytes → UInt32) (call : σ → SenderRequest → Reply × σ)

def apply (d : CleanerDaemon) : CleanerMove σ → CleanerDaemon
  | .passed none               => if d.phase = .passing then { d with phase := .checking } else d
  | .passed (some (x, saved))  => if d.phase = .passing then
      { d with phase := .checking, world := CleanerEvent.apply crc call d.world (.pass x saved) } else d
  | .check now _               => if d.phase = .checking then d.check now else d
  | .reconciled x saved        => if d.phase = .reconciling then
      { d with phase := .sleeping, world := CleanerEvent.apply crc call d.world (.reconcile x saved) } else d
  | .wake w                    => if d.phase = .sleeping then d.wake w else d
  | .reload cfg                => { d with live := cfg }
  | .stop r cfg                => if d.phase = .checking ∨ d.phase = .sleeping then
      .start (CleanerEvent.apply crc call d.world (.stop r)) cfg else d
  | .stopInPass x k r cfg      => if d.phase = .passing then
      .start (CleanerEvent.apply crc call d.world (.stopInPass x k r)) cfg else d
  | .stopInReconcile x k r cfg => if d.phase = .reconciling then
      .start (CleanerEvent.apply crc call d.world (.stopInReconcile x k r)) cfg else d

/-- What a move does where it belongs. -/
inductive Fires (d : CleanerDaemon) : CleanerMove σ → CleanerDaemon → Prop
  | failed (hp : d.phase = .passing) : Fires d (.passed none) { d with phase := .checking }
  | passed (x : Cleaner.PassInput σ) (saved : Option Nat) (hp : d.phase = .passing) : Fires d (.passed (some (x, saved)))
      { d with phase := .checking, world := CleanerEvent.apply crc call d.world (.pass x saved) }
  | due {now : DateTime} {nowInRange} (hp : d.phase = .checking) (hdue : d.Due now) :
      Fires d (.check now nowInRange) { d with phase := .reconciling }
  | forced {now : DateTime} {nowInRange} (hp : d.phase = .checking) (hdue : ¬ d.Due now) (hforce : d.forceReconcile = true) :
      Fires d (.check now nowInRange) { d with phase := .reconciling, forceReconcile := false }
  | idle {now : DateTime} {nowInRange} (hp : d.phase = .checking) (hdue : ¬ d.Due now) (hforce : d.forceReconcile = false) :
      Fires d (.check now nowInRange) { d with phase := .sleeping }
  | reconciled (x : AnsweredPass σ) (saved : Bool) (hp : d.phase = .reconciling) : Fires d (.reconciled x saved)
      { d with phase := .sleeping, world := CleanerEvent.apply crc call d.world (.reconcile x saved) }
  | slept (hp : d.phase = .sleeping) : Fires d (.wake .period) { d with phase := .passing }
  | ran (hp : d.phase = .sleeping) (hpermit : d.runNow = true) :
      Fires d (.wake .runNow) { d with phase := .passing, runNow := false }
  | taken (hp : d.phase = .sleeping) (hpermit : d.reconcileNow = true) :
      Fires d (.wake .reconcileNow) { d with phase := .passing, reconcileNow := false, forceReconcile := true }
  | reload (cfg : LiveConfig) : Fires d (.reload cfg) { d with live := cfg }
  | stop (r : Restart) (cfg : LiveConfig) (hp : d.phase = .checking ∨ d.phase = .sleeping) :
      Fires d (.stop r cfg) (.start (CleanerEvent.apply crc call d.world (.stop r)) cfg)
  | stopInPass (x : Cleaner.PassInput σ) (k : Nat) (r : Restart) (cfg : LiveConfig) (hp : d.phase = .passing) :
      Fires d (.stopInPass x k r cfg) (.start (CleanerEvent.apply crc call d.world (.stopInPass x k r)) cfg)
  | stopInReconcile (x : AnsweredPass σ) (k : Nat) (r : Restart) (cfg : LiveConfig) (hp : d.phase = .reconciling) :
      Fires d (.stopInReconcile x k r cfg) (.start (CleanerEvent.apply crc call d.world (.stopInReconcile x k r)) cfg)

/-- **A move does what belongs to its phase, or nothing.** -/
theorem apply_cases (d : CleanerDaemon) (m : CleanerMove σ) :
    m.apply crc call d = d ∨ ∃ d', m.apply crc call d = d' ∧ Fires crc call d m d' := by
  cases m with
  | passed pass =>
    cases pass with
    | none =>
      simp only [apply]
      split
      · rename_i hp
        exact .inr ⟨_, rfl, .failed hp⟩
      · exact .inl rfl
    | some p =>
      obtain ⟨x, saved⟩ := p
      simp only [apply]
      split
      · rename_i hp
        exact .inr ⟨_, rfl, .passed x saved hp⟩
      · exact .inl rfl
  | check now hrange =>
    simp only [apply, CleanerDaemon.check]
    split
    · rename_i hp
      refine .inr ?_
      split
      · rename_i hdue
        exact ⟨_, rfl, .due hp hdue⟩
      · rename_i hdue
        split
        · rename_i hforce
          exact ⟨_, rfl, .forced hp hdue hforce⟩
        · rename_i hforce
          exact ⟨_, rfl, .idle hp hdue (Bool.eq_false_iff.2 hforce)⟩
    · exact .inl rfl
  | reconciled x saved =>
    simp only [apply]
    split
    · rename_i hp
      exact .inr ⟨_, rfl, .reconciled x saved hp⟩
    · exact .inl rfl
  | wake w =>
    simp only [apply]
    split
    · rename_i hp
      cases w with
      | period => exact .inr ⟨_, rfl, .slept hp⟩
      | runNow =>
        simp only [CleanerDaemon.wake]
        split
        · rename_i hpermit
          exact .inr ⟨_, rfl, .ran hp hpermit⟩
        · exact .inl rfl
      | reconcileNow =>
        simp only [CleanerDaemon.wake]
        split
        · rename_i hpermit
          exact .inr ⟨_, rfl, .taken hp hpermit⟩
        · exact .inl rfl
    · exact .inl rfl
  | reload cfg => exact .inr ⟨_, rfl, .reload cfg⟩
  | stop r cfg =>
    simp only [apply]
    split
    · rename_i hp
      exact .inr ⟨_, rfl, .stop r cfg hp⟩
    · exact .inl rfl
  | stopInPass x k r cfg =>
    simp only [apply]
    split
    · rename_i hp
      exact .inr ⟨_, rfl, .stopInPass x k r cfg hp⟩
    · exact .inl rfl
  | stopInReconcile x k r cfg =>
    simp only [apply]
    split
    · rename_i hp
      exact .inr ⟨_, rfl, .stopInReconcile x k r cfg hp⟩
    · exact .inl rfl

/-- The process ends. -/
def Stops : CleanerMove σ → Prop
  | .stop .. | .stopInPass .. | .stopInReconcile .. => True
  | _                                               => False

end CleanerMove

/-! ## Requests -/

namespace DedupTable

/-- An entry as the status groups it: a range, or the name. -/
def item (p : Planned) : WorkItem :=
  match p.kind with
  | .retransmit => .retransmit p.fileId p.range
  | .resendName => .manifest p.fileId []

def groupByFile (t : DedupTable) : List SenderQueueSnapshot :=
  t.entries.foldl (fun ss e => PacketQueue.addToSnapshot (item e.1) ss) []

end DedupTable

namespace CleanerControl

def status (d : CleanerDaemon) : CleanerStatus where
  inFlight := d.world.table.dedup.groupByFile
  recentRequests := UInt32.ofNat d.world.table.dedup.entries.length
  activeLink := d.activeLink
  lastReconcile := d.world.whole.state.lastSummary
  nextReconcileUnix := some (d.world.whole.state.nextDueUnix d.live.current.cleaner.reconcilePeriodSecs)

def handle (d : CleanerDaemon) : Request → Response × CleanerDaemon
  | .ping                => (.pong "cleaner" CARGO_PKG_VERSION, d)
  | .cleanerStatus       => (.cleanerStatus (status d), d)
  | .cleanerRunNow       => (.ok, { d with runNow := true })
  | .cleanerReconcileNow => (.ok, { d with reconcileNow := true })
  | _                    => (.unsupported, d)

end CleanerControl

/-! ## What an operator asks for is done -/

namespace CleanerDaemon

section

variable {σ : Type}

abbrev Entry (σ : Type) := Serial.Entry Nat Request Response (CleanerMove σ)

/-- The entry begins a pass. -/
def beginsPass (d : CleanerDaemon) : Entry σ → Bool
  | .change (.wake .period)       => decide (d.phase = .sleeping)
  | .change (.wake .runNow)       => decide (d.phase = .sleeping) && d.runNow
  | .change (.wake .reconcileNow) => decide (d.phase = .sleeping) && d.reconcileNow
  | _                             => false

/-- The entry begins a reconciliation that is due. -/
def beginsScheduled (d : CleanerDaemon) : Entry σ → Bool
  | .change (.check now _) => decide (d.phase = .checking) && decide (d.Due now)
  | _                      => false

/-- The entry begins a reconciliation because it was asked for. -/
def beginsForced (d : CleanerDaemon) : Entry σ → Bool
  | .change (.check now _) => decide (d.phase = .checking) && !decide (d.Due now) && d.forceReconcile
  | _                      => false

def Begins (d : CleanerDaemon) (e : Entry σ) : Prop := d.beginsScheduled e = true ∨ d.beginsForced e = true

end

/-- The loop has taken the request and is on its way to it. -/
def Taken (d : CleanerDaemon) : Prop := d.forceReconcile = true ∧ (d.phase = .passing ∨ d.phase = .checking)

/-- A reconciliation is owed to an operator. -/
def Owed (d : CleanerDaemon) : Prop := d.reconcileNow = true ∨ d.Taken

variable {σ : Type} {crc : Bytes → UInt32} {call : σ → SenderRequest → Reply × σ} {d : CleanerDaemon}

/-- A request does nothing but set its permit. -/
theorem handle_same (d : CleanerDaemon) (req : Request) : ∃ r q, (CleanerControl.handle d req).2 =
    { d with runNow := r, reconcileNow := q } ∧ (d.runNow = true → r = true) ∧ (d.reconcileNow = true → q = true) := by
  cases req with
  | cleanerRunNow => exact ⟨true, d.reconcileNow, rfl, fun _ => rfl, id⟩
  | cleanerReconcileNow => exact ⟨d.runNow, true, rfl, id, fun _ => rfl⟩
  | _ => exact ⟨d.runNow, d.reconcileNow, rfl, id, id⟩

/-- **A request taken is kept until its reconciliation begins.** -/
theorem Taken.step (h : d.Taken) {e : Entry σ} (hstop : ∀ m, e = .change m → ¬ m.Stops) :
    (e.apply CleanerControl.handle (CleanerMove.apply crc call) d).Taken ∨ d.Begins e := by
  obtain ⟨hforce, hphase⟩ := h
  cases e with
  | call k req resp =>
    obtain ⟨r, q, hsame, -, -⟩ := handle_same d req
    rw [Serial.Entry.apply, hsame]
    exact .inl ⟨hforce, hphase⟩
  | change m =>
    rcases m.apply_cases crc call d with heq | ⟨d', heq, hf⟩
    · rw [Serial.Entry.apply, heq]
      exact .inl ⟨hforce, hphase⟩
    rw [Serial.Entry.apply, heq]
    cases hf with
    | failed hp => exact .inl ⟨hforce, .inr rfl⟩
    | passed x saved hp => exact .inl ⟨hforce, .inr rfl⟩
    | due hp hdue => exact .inr (.inl (by simp [beginsScheduled, hp, hdue]))
    | forced hp hdue _ => exact .inr (.inr (by simp [beginsForced, hp, hdue, hforce]))
    | idle hp hdue hnot => rw [hforce] at hnot; cases hnot
    | reload cfg => exact .inl ⟨hforce, hphase⟩
    | reconciled x saved hp => rw [hp] at hphase; simp at hphase
    | slept hp => rw [hp] at hphase; simp at hphase
    | ran hp _ => rw [hp] at hphase; simp at hphase
    | taken hp _ => rw [hp] at hphase; simp at hphase
    | stop r cfg hp => exact absurd trivial (hstop _ rfl)
    | stopInPass x k r cfg hp => exact absurd trivial (hstop _ rfl)
    | stopInReconcile x k r cfg hp => exact absurd trivial (hstop _ rfl)

/-- **What is owed is done or stays owed.** -/
theorem Owed.step (h : d.Owed) {e : Entry σ} (hstop : ∀ m, e = .change m → ¬ m.Stops) :
    (e.apply CleanerControl.handle (CleanerMove.apply crc call) d).Owed ∨ d.Begins e := by
  rcases h with h | h
  · refine .inl ?_
    cases e with
    | call k req resp =>
      obtain ⟨r, q, hsame, -, hq⟩ := handle_same d req
      rw [Serial.Entry.apply, hsame]
      exact .inl (hq h)
    | change m =>
      rcases m.apply_cases crc call d with heq | ⟨d', heq, hf⟩
      · rw [Serial.Entry.apply, heq]
        exact .inl h
      rw [Serial.Entry.apply, heq]
      cases hf with
      | taken hp _ => exact .inr ⟨rfl, .inl rfl⟩
      | stop r cfg hp => exact absurd trivial (hstop _ rfl)
      | stopInPass x k r cfg hp => exact absurd trivial (hstop _ rfl)
      | stopInReconcile x k r cfg hp => exact absurd trivial (hstop _ rfl)
      | _ => exact .inl h
  · exact (h.step hstop).imp_left .inr

/-- **A pass asked for begins, or its permit stays.** -/
theorem runNow_step {e : Entry σ} (hstop : ∀ m, e = .change m → ¬ m.Stops) (h : d.runNow = true) :
    (e.apply CleanerControl.handle (CleanerMove.apply crc call) d).runNow = true ∨ d.beginsPass e = true := by
  cases e with
  | call k req resp =>
    obtain ⟨r, q, hsame, hr, -⟩ := handle_same d req
    rw [Serial.Entry.apply, hsame]
    exact .inl (hr h)
  | change m =>
    rcases m.apply_cases crc call d with heq | ⟨d', heq, hf⟩
    · rw [Serial.Entry.apply, heq]
      exact .inl h
    rw [Serial.Entry.apply, heq]
    cases hf with
    | ran hp _ => exact .inr (by simp [beginsPass, hp, h])
    | stop r cfg hp => exact absurd trivial (hstop _ rfl)
    | stopInPass x k r cfg hp => exact absurd trivial (hstop _ rfl)
    | stopInReconcile x k r cfg hp => exact absurd trivial (hstop _ rfl)
    | _ => exact .inl h

end CleanerDaemon

section

open CleanerDaemon

/-- **An operator's request is never lost.**  Through whatever comes in between, on whatever connections, a request for a
pass that was answered has its permit until a pass begins; one for a reconciliation is owed, as a permit or taken, until a
reconciliation begins; and once the loop has taken it, it does not go back to sleep without one. -/
theorem operator_requests_served {σ : Type} (crc : Bytes → UInt32) (call : σ → SenderRequest → Reply × σ)
    (codec : ControlCodec) (d : CleanerDaemon) (steps : List (ControlStep (CleanerMove σ))) :
    let s := (ControlServer.start d).run codec CleanerControl.handle (CleanerMove.apply crc call) steps
    ∀ pre k req resp mid, s.history = pre ++ .call k req resp :: mid → (∀ m, .change m ∈ mid → ¬ m.Stops) →
      let after := fun h => Serial.replay CleanerControl.handle (CleanerMove.apply crc call) d (pre ++ .call k req resp :: h)
      (req = .cleanerRunNow → resp = .ok ∧
        (s.handler.runNow = true ∨ ∃ a e b, mid = a ++ e :: b ∧ (after a).beginsPass e = true)) ∧
      (req = .cleanerReconcileNow → resp = .ok ∧
        (s.handler.Owed ∨ ∃ a e b, mid = a ++ e :: b ∧ (after a).Begins e) ∧
        ∀ a b, mid = a ++ b → (after a).Taken → s.handler.phase = .sleeping →
          ∃ b₁ e b₂, b = b₁ ++ e :: b₂ ∧ (after (a ++ b₁)).Begins e) := by
  intro s pre k req resp mid hsplit hstop after
  have hinv : s.Inv codec CleanerControl.handle (CleanerMove.apply crc call) d := ControlServer.inv_start.run steps
  have hlegal := hinv.legal
  rw [hsplit] at hlegal
  have hresp := hlegal.answer
  have hafter : ∀ h, after h = Serial.replay CleanerControl.handle (CleanerMove.apply crc call) (after []) h := by
    intro h
    show Serial.replay _ _ d _ = Serial.replay _ _ (Serial.replay _ _ d _) h
    rw [← Serial.replay_append, List.append_assoc]
    rfl
  have hend : s.handler = after mid := by
    rw [← hinv.state, hsplit]
  have hmoves : ∀ e ∈ mid, ∀ m, e = .change m → ¬ m.Stops := fun e he m hm => hstop m (hm ▸ he)
  refine ⟨fun hreq => ?_, fun hreq => ?_⟩
  · subst hreq
    refine ⟨hresp.symm, ?_⟩
    rw [hend, hafter]
    have hset : (after []).runNow = true := by
      show (Serial.replay _ _ d (pre ++ [.call k .cleanerRunNow resp])).runNow = true
      rw [Serial.replay_append]
      rfl
    rcases Serial.replay_until (P := fun d : CleanerDaemon => d.runNow = true)
      (Q := fun d e => CleanerDaemon.beginsPass d e = true)
      (fun e he _ hd => runNow_step (hmoves e he) hd) hset with hd | ⟨a, e, b, heq, he⟩
    · exact .inl hd
    · exact .inr ⟨a, e, b, heq, by rwa [hafter]⟩
  · subst hreq
    refine ⟨hresp.symm, ?_, fun a b heq htaken hasleep => ?_⟩
    · rw [hend, hafter]
      have hset : (after []).Owed := by
        refine .inl ?_
        show (Serial.replay _ _ d (pre ++ [.call k .cleanerReconcileNow resp])).reconcileNow = true
        rw [Serial.replay_append]
        rfl
      rcases Serial.replay_until (P := Owed) (Q := fun d e => d.Begins e)
        (fun e he _ hd => Owed.step hd (hmoves e he)) hset with hd | ⟨a, e, b, heq, he⟩
      · exact .inl hd
      · exact .inr ⟨a, e, b, heq, by rwa [hafter]⟩
    · have hb : ∀ e ∈ b, ∀ m, e = .change m → ¬ m.Stops :=
        fun e he => hmoves e (by rw [heq]; exact List.mem_append_right a he)
      have hlast : s.handler = Serial.replay CleanerControl.handle (CleanerMove.apply crc call) (after a) b := by
        rw [hend, heq, hafter, Serial.replay_append, ← hafter]
      rcases Serial.replay_until (P := Taken) (Q := fun d e => d.Begins e) (fun e he _ hd => Taken.step hd (hb e he)) htaken
        with hd | ⟨b₁, e, b₂, heq', he⟩
      · rw [← hlast] at hd
        obtain ⟨-, hphase | hphase⟩ := hd <;> rw [hasleep] at hphase <;> cases hphase
      · refine ⟨b₁, e, b₂, heq', ?_⟩
        rw [hafter, Serial.replay_append, ← hafter]
        exact he

namespace CleanerMove

/-- The clock is read, or a reconciliation over the sample comes to its end and is saved, `t` seconds after 1970. -/
def checkAt (t : Fin (2 ^ 40)) : CleanerMove Unit := .check (ReconcileInput.sample t).now (ReconcileInput.sample t).nowInRange

def doneAt (t : Fin (2 ^ 40)) : CleanerMove Unit :=
  .reconciled ⟨.sample t, fun _ => secs (ReconcileInput.sample t).now, fun _ => Int.le_refl _⟩ true

end CleanerMove

/-- The JSON of the request. -/
def ControlCodec.reconciles : ControlCodec where
  encodeRequest := fun _ => Utf8.encode "\x7b\"op\":\"cleaner_reconcile_now\"\x7d".toList
  parseRequest := fun _ => .ok .cleanerReconcileNow
  encodeResponse := fun _ => Utf8.encode "\x7b\"kind\":\"ok\"\x7d".toList
  parseResponse := fun _ => .ok .ok

/-- The request comes before the first pass is over; the loop sleeps, is woken for it and makes its pass first. -/
theorem operator_requests_served_first :
    let bytes := Frames.frame (ControlCodec.reconciles.encodeRequest .cleanerReconcileNow)
    let mid : List (Entry Unit) := [.change (.passed none), .change (.checkAt 100000), .change (.doneAt 100000),
      .change (.wake .reconcileNow), .change (.passed none)]
    let steps : List (ControlStep (CleanerMove Unit)) := [.accept, .arrive 0 bytes, .turn 0 none, .turn 0 none,
      .outside (.passed none), .outside (.checkAt 100000), .outside (.doneAt 100000), .outside (.wake .reconcileNow),
      .outside (.passed none)]
    let call : Unit → SenderRequest → Reply × Unit := fun u _ => (.ok, u)
    let d : CleanerDaemon := .start (.start none none (300 * SECOND) 0) .default
    let s := (ControlServer.start d).run .reconciles CleanerControl.handle (CleanerMove.apply crc32 call) steps
    s.handler.Owed ∨ ∃ a e b, mid = a ++ e :: b ∧ (Serial.replay CleanerControl.handle (CleanerMove.apply crc32 call) d
      ([] ++ .call 0 .cleanerReconcileNow .ok :: a)).Begins e := by
  intro bytes mid steps call d s
  refine ((operator_requests_served crc32 call .reconciles d steps [] 0 .cleanerReconcileNow .ok mid rfl ?_).2 rfl).2.1
  intro m hm
  simp only [mid, List.mem_cons, Serial.Entry.change.injEq, List.not_mem_nil, or_false] at hm
  rcases hm with rfl | rfl | rfl | rfl | rfl <;> exact id

end

/-! ## When the reconciler runs -/

/-- What of the state says when the last pass was. -/
def ReconcileState.RanSince (st : ReconcileState) (t : Int) : Prop :=
  ∃ ts, st.lastRunUnix = some ts ∧ t ≤ ts.toInt ∧ ts.toInt < CHRONO_SECS

namespace CleanerMove

variable {σ : Type}

/-- The configurations a move brings have the period. -/
def HasPeriod (period : UInt64) : CleanerMove σ → Prop
  | .reload cfg | .stop _ cfg | .stopInPass _ _ _ cfg | .stopInReconcile _ _ _ cfg =>
    cfg.current.cleaner.reconcilePeriodSecs = period
  | _ => True

/-- The second at which a move reads the calendar. -/
def utc? : CleanerMove σ → Option Int
  | .check now _    => some (secs now)
  | .reconciled x _ => some (secs x.input.now)
  | _               => none

/-- The state of a reconciliation is saved at its end. -/
def Saves : CleanerMove σ → Prop
  | .reconciled _ saved => saved = true
  | .stopInReconcile .. => False
  | _                   => True

end CleanerMove

/-- A pass of the reconciler notes its time, whatever it finds. -/
theorem ReconcileInput.lastRunUnix_run {σ : Type} (x : ReconcileInput σ) (call : σ → SenderRequest → Reply × σ)
    (st : ReconcileState) : (x.run call st).state.lastRunUnix = some (Reconcile.timestamp x.now) := by
  unfold ReconcileInput.run Reconciler.run
  dsimp only
  split <;> rfl

namespace CleanerDaemon

variable {σ : Type} {crc : Bytes → UInt32} {call : σ → SenderRequest → Reply × σ} {d : CleanerDaemon} {period : UInt64}
  {t : Int}

/-- A reconciliation has begun at the second `t` or later, and is under way or noted, in the state and in its file. -/
def Since (d : CleanerDaemon) (t : Int) : Prop :=
  d.phase = .reconciling ∨ d.world.whole.state.RanSince t ∧ (ReconcileProcess.load d.world.whole.file).RanSince t

/-- **What is due comes a period after what was noted.** -/
theorem Due.later (hperiod : period.toNat < 2 ^ 62) (hlive : d.live.current.cleaner.reconcilePeriodSecs = period)
    (h : d.world.whole.state.RanSince t) (ht : -CHRONO_SECS ≤ t) {now : DateTime}
    (hrange : -CHRONO_SECS ≤ secs now ∧ secs now < CHRONO_SECS) (hdue : d.Due now) : t + period.toNat ≤ secs now := by
  obtain ⟨ts, hts, hle, hlt⟩ := h
  unfold Due ReconcileState.nextDueUnix at hdue
  rw [hts, hlive] at hdue
  dsimp only at hdue
  rw [Int64.le_iff_toInt_le] at hdue
  unfold CHRONO_SECS at *
  have hp : period.toInt64.toInt = period.toNat := by
    show period.toBitVec.toInt = _
    exact BitVec.toInt_eq_toNat_of_lt (by show 2 * period.toNat < 2 ^ 64; omega)
  have hsum : (ts + period.toInt64).toInt = ts.toInt + period.toNat := by
    rw [Int64.toInt_add, hp]
    exact Int.bmod_eq_of_le (by omega) (by omega)
  have hnow : (Reconcile.timestamp now).toInt = secs now := by
    show (Int64.ofInt (secs now)).toInt = _
    exact Int64.toInt_ofInt_of_le (by omega) (by omega)
  omega

theorem ranSince_run (x : ReconcileInput σ) (st : ReconcileState) (ht : t ≤ secs x.now) :
    (x.run call st).state.RanSince t := by
  refine ⟨_, x.lastRunUnix_run call st, ?_, ?_⟩
  · rw [x.toInt_timestamp]
    exact ht
  · rw [x.toInt_timestamp]
    exact x.nowInRange.2

/-- **What has begun is noted, and stays noted** over everything, restarts included. -/
theorem Since.step (h : d.Since t) {e : Entry σ} (hsave : ∀ m, e = .change m → m.Saves)
    (hclock : ∀ m, e = .change m → ∀ u ∈ m.utc?, t ≤ u) :
    (e.apply CleanerControl.handle (CleanerMove.apply crc call) d).Since t := by
  cases e with
  | call k req resp =>
    obtain ⟨r, q, hsame, -, -⟩ := handle_same d req
    rw [Serial.Entry.apply, hsame]
    exact h
  | change m =>
    rcases m.apply_cases crc call d with heq | ⟨d', heq, hf⟩
    · rw [Serial.Entry.apply, heq]
      exact h
    rw [Serial.Entry.apply, heq]
    -- unless one is under way, what is noted is in the state and in its file
    have hnoted : d.phase ≠ .reconciling →
        d.world.whole.state.RanSince t ∧ (ReconcileProcess.load d.world.whole.file).RanSince t := h.resolve_left
    cases hf with
    | failed hp => exact .inr (hnoted (by simp [hp]))
    | passed x saved hp => cases saved <;> exact .inr (hnoted (by simp [hp]))
    | due hp _ => exact .inl rfl
    | forced hp _ _ => exact .inl rfl
    | idle hp _ _ => exact .inr (hnoted (by simp [hp]))
    | reconciled x saved hp =>
      cases (hsave _ rfl : saved = true)
      have hran := @ranSince_run σ call t x.input d.world.whole.state (hclock _ rfl _ rfl)
      exact .inr ⟨hran, hran⟩
    | slept hp => exact .inr (hnoted (by simp [hp]))
    | ran hp _ => exact .inr (hnoted (by simp [hp]))
    | taken hp _ => exact .inr (hnoted (by simp [hp]))
    | reload cfg => exact h
    | stop r cfg hp =>
      have hfile := (hnoted (by rcases hp with hp | hp <;> simp [hp])).2
      exact .inr ⟨hfile, hfile⟩
    | stopInPass x k r cfg hp =>
      have hfile := (hnoted (by simp [hp])).2
      exact .inr ⟨hfile, hfile⟩
    | stopInReconcile x k r cfg hp => exact (hsave _ rfl).elim

theorem live_step (hlive : d.live.current.cleaner.reconcilePeriodSecs = period) {e : Entry σ}
    (hcfg : ∀ m, e = .change m → m.HasPeriod period) :
    (e.apply CleanerControl.handle (CleanerMove.apply crc call) d).live.current.cleaner.reconcilePeriodSecs = period := by
  cases e with
  | call k req resp =>
    obtain ⟨r, q, hsame, -, -⟩ := handle_same d req
    rw [Serial.Entry.apply, hsame]
    exact hlive
  | change m =>
    rcases m.apply_cases crc call d with heq | ⟨d', heq, hf⟩
    · rw [Serial.Entry.apply, heq]
      exact hlive
    rw [Serial.Entry.apply, heq]
    cases hf with
    | reload cfg => exact hcfg _ rfl
    | stop r cfg hp => exact hcfg _ rfl
    | stopInPass x k r cfg hp => exact hcfg _ rfl
    | stopInReconcile x k r cfg hp => exact hcfg _ rfl
    | _ => exact hlive

/-- The second at which an entry reads the calendar. -/
def utcOf : Entry σ → Option Int
  | .change m => m.utc?
  | .call ..  => none

/-- A reconciliation begins where the loop checks for it, and is under way then. -/
theorem Begins.check {e : Entry σ} (h : d.Begins e) : ∃ now hrange, e = .change (.check now hrange) ∧ d.phase = .checking ∧
    (e.apply CleanerControl.handle (CleanerMove.apply crc call) d).phase = .reconciling := by
  cases e with
  | call k req resp => rcases h with h | h <;> cases h
  | change m =>
    cases m with
    | check now hrange =>
      simp only [Begins, beginsScheduled, beginsForced, Bool.and_eq_true, decide_eq_true_eq, Bool.not_eq_true',
        decide_eq_false_iff_not] at h
      rcases h with ⟨hp, hdue⟩ | ⟨⟨hp, hdue⟩, hforce⟩
      · refine ⟨now, hrange, rfl, hp, ?_⟩
        simp only [Serial.Entry.apply, CleanerMove.apply, CleanerDaemon.check, if_pos hp, if_pos hdue]
      · refine ⟨now, hrange, rfl, hp, ?_⟩
        simp only [Serial.Entry.apply, CleanerMove.apply, CleanerDaemon.check, if_pos hp, if_neg hdue, if_pos hforce]
    | _ => rcases h with h | h <;> cases h

/-- What can still make the reconciler run before it is due. -/
def credit (d : CleanerDaemon) : Nat := d.reconcileNow.toNat + d.forceReconcile.toNat

def asksReconcile : Entry σ → Bool
  | .call _ .cleanerReconcileNow _ => true
  | _                              => false

/-- **A forced reconciliation uses up a request.** -/
theorem credit_step (d : CleanerDaemon) (e : Entry σ) :
    (e.apply CleanerControl.handle (CleanerMove.apply crc call) d).credit + (d.beginsForced e).toNat ≤
      d.credit + (asksReconcile e).toNat := by
  cases e with
  | call k req resp =>
    cases req with
    | cleanerReconcileNow =>
      show true.toNat + d.forceReconcile.toNat + 0 ≤ d.reconcileNow.toNat + d.forceReconcile.toNat + true.toNat
      omega
    | _ => exact Nat.le_refl _
  | change m =>
    rcases m.apply_cases crc call d with heq | ⟨d', heq, hf⟩
    · have hnot : d.beginsForced (.change m) = false := by
        by_contra hb
        obtain ⟨now, hrange, -, hp, hnext⟩ := @Begins.check σ crc call d (.change m) (.inr (Bool.eq_true_of_not_eq_false hb))
        rw [Serial.Entry.apply, heq, hp] at hnext
        cases hnext
      rw [Serial.Entry.apply, heq, hnot]
      exact Nat.le_refl _
    rw [Serial.Entry.apply, heq]
    cases hf with
    | forced hp hdue hforce => simp [credit, beginsForced, asksReconcile, hp, hdue, hforce]
    | due hp hdue => simp [credit, beginsForced, asksReconcile, hdue]
    | idle hp hdue hforce => simp [credit, beginsForced, asksReconcile, hforce]
    | taken hp hpermit => simp [credit, beginsForced, asksReconcile, hpermit]
    | stop r cfg hp => simp [credit, beginsForced, asksReconcile, CleanerDaemon.start]
    | stopInPass x k r cfg hp => simp [credit, beginsForced, asksReconcile, CleanerDaemon.start]
    | stopInReconcile x k r cfg hp => simp [credit, beginsForced, asksReconcile, CleanerDaemon.start]
    | _ => exact Nat.le_refl _

theorem credit_run : ∀ (h : List (Entry σ)) (d : CleanerDaemon),
    (Serial.moments CleanerControl.handle (CleanerMove.apply crc call) d h).countP (fun m => m.1.beginsForced m.2) ≤
      d.credit + h.countP asksReconcile
  | [], d     => Nat.zero_le _
  | e :: h, d => by
    have hstep := @credit_step σ crc call d e
    have ih := credit_run h (e.apply CleanerControl.handle (CleanerMove.apply crc call) d)
    rw [Serial.moments, List.countP_cons, List.countP_cons]
    cases hb : d.beginsForced e <;> cases hq : asksReconcile e <;> rw [hb, hq] at hstep <;> simp at hstep ⊢ <;> omega

/-- **After a reconciliation has begun**, the next one that is due comes a period later. -/
theorem Since.spaced (hperiod : period.toNat < 2 ^ 62) (ht : -CHRONO_SECS ≤ t) : ∀ (h : List (Entry σ)) {d : CleanerDaemon},
    d.Since t → d.live.current.cleaner.reconcilePeriodSecs = period →
      (∀ m, .change m ∈ h → m.HasPeriod period ∧ m.Saves) → (∀ u ∈ h.filterMap utcOf, t ≤ u) →
      ∀ m ∈ Serial.moments CleanerControl.handle (CleanerMove.apply crc call) d h, m.1.beginsScheduled m.2 = true →
        ∀ u ∈ utcOf m.2, t + period.toNat ≤ u
  | [], _, _, _, _, _, m, hm, _, _, _ => by cases hm
  | e :: h, d, hsince, hlive, hmoves, hclock, m, hm, hbegins, u, hu => by
    have he : ∀ m, e = .change m → m.HasPeriod period ∧ m.Saves := fun m hm => hmoves m (hm ▸ List.mem_cons_self)
    rcases List.mem_cons.1 hm with rfl | hm
    · cases e with
      | call k req resp => cases hu
      | change m =>
        cases m with
        | check now hrange =>
          cases hu
          simp only [beginsScheduled, Bool.and_eq_true, decide_eq_true_eq] at hbegins
          obtain ⟨hp, hdue⟩ := hbegins
          exact hdue.later hperiod hlive (hsince.resolve_left (by simp [hp])).1 ht hrange
        | _ => cases hbegins
    · refine Since.spaced hperiod ht h (hsince.step (fun m hm => (he m hm).2) (fun m hm u' hu' => ?_))
        (live_step hlive (fun m hm => (he m hm).1)) (fun m' hm' => hmoves m' (List.mem_cons_of_mem _ hm')) (fun u' hu' => ?_)
        m hm hbegins u hu
      · refine hclock u' (List.mem_filterMap.2 ⟨e, List.mem_cons_self, ?_⟩)
        rw [hm]
        exact hu'
      · obtain ⟨e', he', hutc⟩ := List.mem_filterMap.1 hu'
        exact hclock u' (List.mem_filterMap.2 ⟨e', List.mem_cons_of_mem _ he', hutc⟩)

theorem spaced_run (hperiod : period.toNat < 2 ^ 62) : ∀ (h : List (Entry σ)) {d : CleanerDaemon},
    d.live.current.cleaner.reconcilePeriodSecs = period → (∀ m, .change m ∈ h → m.HasPeriod period ∧ m.Saves) →
      (h.filterMap utcOf).Pairwise (· ≤ ·) →
      (Serial.moments CleanerControl.handle (CleanerMove.apply crc call) d h).Pairwise (fun m m' => m.1.Begins m.2 →
        m'.1.beginsScheduled m'.2 = true → ∀ t ∈ utcOf m.2, ∀ t' ∈ utcOf m'.2, t + period.toNat ≤ t')
  | [], _, _, _, _ => .nil
  | e :: h, d, hlive, hmoves, hclock => by
    have he : ∀ m, e = .change m → m.HasPeriod period ∧ m.Saves := fun m hm => hmoves m (hm ▸ List.mem_cons_self)
    have hlive' := @live_step σ crc call d period hlive e (fun m hm => (he m hm).1)
    have hmoves' : ∀ m, .change m ∈ h → m.HasPeriod period ∧ m.Saves := fun m hm => hmoves m (List.mem_cons_of_mem _ hm)
    rw [Serial.moments, List.pairwise_cons]
    refine ⟨fun m' hm' hbegins hsched t ht t' ht' => ?_, spaced_run hperiod h hlive' hmoves' ?_⟩
    · obtain ⟨now, hrange, rfl, -, hphase⟩ := @Begins.check σ crc call d e hbegins
      cases ht
      have hlater := (List.pairwise_cons.1 (show (secs now :: h.filterMap utcOf).Pairwise (· ≤ ·) from hclock)).1
      exact Since.spaced hperiod hrange.1 h (.inl hphase) hlive' hmoves' hlater m' hm' hsched t' ht'
    · rw [List.filterMap_cons] at hclock
      split at hclock
      · exact hclock
      · exact (List.pairwise_cons.1 hclock).2

end CleanerDaemon

/-- **The reconciler runs as often as it is due and as it is asked to.**  Over every run of the cleaner, restarts
included, whose reconciliations were saved and whose calendar does not go back: one that is due begins a period or more
after any before it, and those begun before they were due are no more than the requests for one. -/
theorem reconciliations_spaced {σ : Type} (crc : Bytes → UInt32) (call : σ → SenderRequest → Reply × σ)
    (codec : ControlCodec) (world : CleanerWorld) (cfg : LiveConfig) (period : UInt64) (hperiod : period.toNat < 2 ^ 62)
    (hcfg : cfg.current.cleaner.reconcilePeriodSecs = period) (steps : List (ControlStep (CleanerMove σ)))
    (hmoves : ∀ m ∈ steps.filterMap ControlStep.outside?, m.HasPeriod period ∧ m.Saves)
    (hclock : ((steps.filterMap ControlStep.outside?).filterMap CleanerMove.utc?).Pairwise (· ≤ ·)) :
    let s := (ControlServer.start (.start world cfg)).run codec CleanerControl.handle (CleanerMove.apply crc call) steps
    let ms := Serial.moments CleanerControl.handle (CleanerMove.apply crc call) (.start world cfg) s.history
    ms.Pairwise (fun m m' => m.1.Begins m.2 → m'.1.beginsScheduled m'.2 = true →
      ∀ t ∈ CleanerDaemon.utcOf m.2, ∀ t' ∈ CleanerDaemon.utcOf m'.2, t + period.toNat ≤ t') ∧
    ms.countP (fun m => m.1.beginsForced m.2) ≤ s.history.countP CleanerDaemon.asksReconcile := by
  intro s ms
  have hchanges : Serial.changes s.history = steps.filterMap ControlStep.outside? :=
    ControlServer.changes_run steps (ControlServer.start (CleanerDaemon.start world cfg))
  have hutc : s.history.filterMap CleanerDaemon.utcOf = (Serial.changes s.history).filterMap CleanerMove.utc? := by
    rw [Serial.changes, List.filterMap_filterMap]
    refine List.filterMap_congr (fun e _ => ?_)
    cases e <;> rfl
  refine ⟨CleanerDaemon.spaced_run hperiod s.history hcfg (fun m hm => hmoves m ?_) ?_, ?_⟩
  · rw [← hchanges]
    exact Serial.mem_changes.2 hm
  · rw [hutc, hchanges]
    exact hclock
  · exact (CleanerDaemon.credit_run s.history _).trans (Nat.le_of_eq (Nat.zero_add _))

/-- A reconciliation at once, one an operator asks for an hour later, and after a restart the next when it is due. -/
theorem reconciliations_spaced_restarted :
    let bytes := Frames.frame (ControlCodec.reconciles.encodeRequest .cleanerReconcileNow)
    let steps : List (ControlStep (CleanerMove Unit)) := [.outside (.passed none), .outside (.checkAt 100000), .accept,
      .outside (.doneAt 100000), .arrive 0 bytes, .turn 0 none, .turn 0 none, .outside (.wake .reconcileNow),
      .outside (.passed none), .outside (.checkAt 103600), .outside (.doneAt 103600), .outside (.stop ⟨0, 0⟩ .default),
      .outside (.passed none), .outside (.checkAt 125200)]
    let d : CleanerDaemon := .start (.start none none (300 * SECOND) 0) .default
    let s := (ControlServer.start d).run .reconciles CleanerControl.handle
      (CleanerMove.apply crc32 (fun (u : Unit) _ => (.ok, u))) steps
    (Serial.moments CleanerControl.handle (CleanerMove.apply crc32 (fun (u : Unit) _ => (.ok, u))) d s.history).countP
      (fun m => m.1.beginsForced m.2) ≤ s.history.countP CleanerDaemon.asksReconcile := by
  intro bytes steps d s
  refine (reconciliations_spaced crc32 (fun (u : Unit) _ => (.ok, u)) .reconciles (.start none none (300 * SECOND) 0) .default
    (6 * 60 * 60) (by decide) rfl steps ?_ (by decide)).2
  intro m hm
  simp only [steps, List.filterMap_cons, ControlStep.outside?, List.filterMap_nil, List.mem_cons, List.not_mem_nil,
    or_false] at hm
  rcases hm with rfl | rfl | rfl | rfl | rfl | rfl | rfl | rfl | rfl | rfl
  all_goals first | exact ⟨trivial, trivial⟩ | exact ⟨trivial, rfl⟩ | exact ⟨rfl, trivial⟩

end Parachuter
