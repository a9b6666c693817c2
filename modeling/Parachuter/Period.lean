import Parachuter.Reconcile
/-!
# Period — the reconciler's memory over passes and restarts

Every file asked for whole and answered `Ok` is entered with the time of its pass, and stays while fewer seconds than the
period have gone by; a pass looks there before it asks.  The state is saved after every pass, and a restart reads it back.
-/
namespace Parachuter

/-- The seconds a `DateTime` can be away from 1970, in either direction. -/
def CHRONO_SECS : Int := 2 ^ 43

/-- Whole seconds since 1970. -/
def secs (t : DateTime) : Int := t / 1000000000

/-- What one pass of the reconciler meets.  Passes on schedule and passes an operator asks for are alike. -/
structure ReconcileInput (σ : Type) where
  cfg        : LiveConfig
  finals     : Path
  found      : Option (Path × Except Error (List SnapshotRow))
  listed     : Disk
  ages       : FileId → Option UInt64
  status     : Option (List SenderQueueSnapshot)
  view       : Nat → Disk
  now        : DateTime
  nowInRange : -CHRONO_SECS ≤ secs now ∧ secs now < CHRONO_SECS
  env        : σ

namespace ReconcileInput

variable {σ : Type} (x : ReconcileInput σ)

def run (call : σ → SenderRequest → Reply × σ) (st : ReconcileState) : Reconciler.Pass σ :=
  Reconciler.run x.cfg call x.finals x.found x.listed x.ages x.status x.view x.now st x.env

/-- The verdicts on the rows of the snapshot. -/
def plan (rows : List SnapshotRow) : List (SnapshotRow × Verdict) :=
  Reconcile.plan x.finals (Reconciler.observed x.listed x.ages x.status) x.now x.cfg.current.cleaner.reconcileGraceSecs
    x.view 0 rows

/-- What is remembered once older entries are dropped. -/
def pruned (st : ReconcileState) : List (FileId × Int64) :=
  st.requested.filter (fun e => Reconcile.timestamp x.now - e.2 < x.cfg.current.cleaner.reconcilePeriodSecs.toInt64)

end ReconcileInput

namespace Reconciler

/-- The file a request asks for, if it was answered `Ok`. -/
def okId : SenderRequest × Reply → Option FileId
  | (.enqueue id _ _ _, .ok) => some id
  | _                        => none

section

variable {σ : Type} {call : σ → SenderRequest → Reply × σ} {reachable : Bool} {now : Int64}

/-- **The loop enters what is answered `Ok`**, each file once and only what was not there. -/
theorem requestLoop_memory : ∀ (plan : List (SnapshotRow × Verdict)) (requested : List (FileId × Int64)) (env : σ),
    let out := requestLoop call reachable now plan requested env
    out.requested = (out.asked.filterMap okId).reverse.map (fun id => (id, now)) ++ requested ∧
    (out.asked.filterMap okId).Nodup ∧ ∀ id ∈ out.asked.filterMap okId, requested.lookup id = none
  | [], requested, env                         => ⟨rfl, List.nodup_nil, fun id hid => by cases hid⟩
  | (row, verdict) :: plan, requested, env => by
    have hskip := requestLoop_memory plan requested env
    unfold requestLoop
    split
    · exact hskip
    split
    · exact hskip
    split
    · exact hskip
    rename_i hnew
    have hnone : requested.lookup row.fileId = none := Option.not_isSome_iff_eq_none.1 hnew
    dsimp only
    cases hreply : (call env (resend row.fileId)).1 with
    | ok =>
      obtain ⟨hmem, hnodup, hfree⟩ :=
        requestLoop_memory plan ((row.fileId, now) :: requested) (call env (resend row.fileId)).2
      have hok : okId (resend row.fileId, Reply.ok) = some row.fileId := rfl
      rw [if_pos rfl, List.filterMap_cons, hok]
      have hout : ∀ id ∈ (requestLoop call reachable now plan ((row.fileId, now) :: requested)
          (call env (resend row.fileId)).2).asked.filterMap okId, id ≠ row.fileId ∧ requested.lookup id = none := by
        intro id hid
        have hlook := hfree id hid
        rw [List.lookup_cons] at hlook
        by_cases heq : id = row.fileId
        · rw [heq, beq_self_eq_true] at hlook
          cases hlook
        · rw [beq_false_of_ne heq] at hlook
          exact ⟨heq, hlook⟩
      refine ⟨?_, List.nodup_cons.2 ⟨fun hin => (hout _ hin).1 rfl, hnodup⟩, fun id hid => ?_⟩
      · rw [hmem]
        simp
      · rcases List.mem_cons.1 hid with rfl | hid
        · exact hnone
        · exact (hout id hid).2
    | rejected =>
      rw [if_neg (by decide), List.filterMap_cons]
      exact requestLoop_memory plan requested (call env (resend row.fileId)).2
    | failed =>
      rw [if_neg (by decide), List.filterMap_cons]
      exact requestLoop_memory plan requested (call env (resend row.fileId)).2

/-- **Nothing that is remembered is asked for.** -/
theorem lookup_of_asked {q : SenderRequest × Reply} {id : FileId} (hid : q.1 = resend id) :
    ∀ {plan : List (SnapshotRow × Verdict)} {requested : List (FileId × Int64)} {env : σ},
      q ∈ (requestLoop call reachable now plan requested env).asked → requested.lookup id = none
  | [], _, _, h                            => by cases h
  | (row, verdict) :: plan, requested, env, h => by
    unfold requestLoop at h
    split at h
    · exact lookup_of_asked hid h
    split at h
    · exact lookup_of_asked hid h
    split at h
    · exact lookup_of_asked hid h
    rename_i hnew
    dsimp only at h
    rcases List.mem_cons.1 h with rfl | h
    · have hsame : row.fileId = id := by
        unfold resend at hid
        cases hid
        rfl
      rw [← hsame]
      exact Option.not_isSome_iff_eq_none.1 hnew
    · have hmem := lookup_of_asked hid h
      split at hmem
      · rw [List.lookup_cons] at hmem
        split at hmem
        · cases hmem
        · exact hmem
      · exact hmem

/-- **A missing row that is not remembered is asked for**, if the sender can be reached. -/
theorem exists_asked : ∀ {plan : List (SnapshotRow × Verdict)} {requested : List (FileId × Int64)} {env : σ}
    {row : SnapshotRow}, (row, Verdict.missing) ∈ plan → requested.lookup row.fileId = none →
    ∃ q ∈ (requestLoop call true now plan requested env).asked, q.1 = resend row.fileId
  | [], _, _, _, h, _                                => by cases h
  | (row', verdict) :: plan, requested, env, row, h, hnone => by
    by_cases hhere : (row, Verdict.missing) = (row', verdict)
    · cases hhere
      unfold requestLoop
      rw [if_neg (not_not.2 rfl), if_neg (by decide), hnone]
      exact ⟨_, List.mem_cons_self, rfl⟩
    · have hlater := (List.mem_cons.1 h).resolve_left hhere
      unfold requestLoop
      split
      · exact exists_asked hlater hnone
      split
      · exact exists_asked hlater hnone
      split
      · exact exists_asked hlater hnone
      dsimp only
      by_cases hsame : row'.fileId = row.fileId
      · exact ⟨_, List.mem_cons_self, by rw [hsame]⟩
      · -- what another row adds to the memory does not touch this one
        have hmem : (if (call env (resend row'.fileId)).1 = .ok then (row'.fileId, now) :: requested else requested).lookup
            row.fileId = none := by
          split
          · rw [List.lookup_cons, beq_false_of_ne (Ne.symm hsame)]
            exact hnone
          · exact hnone
        obtain ⟨q, hq, heq⟩ := @exists_asked plan _ (call env (resend row'.fileId)).2 row hlater hmem
        exact ⟨q, List.mem_cons_of_mem _ hq, heq⟩

end

end Reconciler

namespace ReconcileInput

variable {σ : Type} {call : σ → SenderRequest → Reply × σ} {st : ReconcileState} {x : ReconcileInput σ}

/-- **What a pass does to the memory**: it is left alone, or pruned and extended by what is answered `Ok`. -/
theorem run_memory (call : σ → SenderRequest → Reply × σ) (x : ReconcileInput σ) (st : ReconcileState) :
    (x.run call st).asked = [] ∧ (x.run call st).state.requested = st.requested ∨
    (x.run call st).state.requested = ((x.run call st).asked.filterMap Reconciler.okId).reverse.map
        (fun id => (id, Reconcile.timestamp x.now)) ++ x.pruned st ∧
      ((x.run call st).asked.filterMap Reconciler.okId).Nodup ∧
      ∀ id ∈ (x.run call st).asked.filterMap Reconciler.okId, (x.pruned st).lookup id = none := by
  unfold run Reconciler.run
  dsimp only
  split
  · exact .inl ⟨rfl, rfl⟩
  · exact .inl ⟨rfl, rfl⟩
  · exact .inr (Reconciler.requestLoop_memory _ _ _)

theorem pruned_of_asked {q : SenderRequest × Reply} {id : FileId} (hq : q ∈ (x.run call st).asked)
    (hid : q.1 = Reconciler.resend id) : (x.pruned st).lookup id = none := by
  unfold run Reconciler.run at hq
  dsimp only at hq
  split at hq
  · cases hq
  · cases hq
  · exact Reconciler.lookup_of_asked hid hq

theorem asked_run {snap : Path} {rows : List SnapshotRow} (hfound : x.found = some (snap, .ok rows)) :
    (x.run call st).asked =
      (Reconciler.requestLoop call x.status.isSome (Reconcile.timestamp x.now) (x.plan rows) (x.pruned st) x.env).asked := by
  unfold run Reconciler.run
  rw [hfound]
  dsimp only
  rw [Option.isSome_map]
  rfl

/-- The time of a pass, in whole seconds. -/
theorem toInt_timestamp (x : ReconcileInput σ) : (Reconcile.timestamp x.now).toInt = secs x.now := by
  have h := x.nowInRange
  unfold CHRONO_SECS at h
  show (Int64.ofInt (secs x.now)).toInt = _
  exact Int64.toInt_ofInt_of_le (by omega) (by omega)

end ReconcileInput

/-! ## Runs -/

/-- A reconciler between its passes: its state, what is saved of it, and the files asked for whole and answered `Ok`, each
with the time of its pass. -/
structure ReconcileProcess where
  state   : ReconcileState
  saved   : Option ReconcileState
  history : List (FileId × Int64)

inductive ReconcileEvent (σ : Type)
  | pass (x : ReconcileInput σ)
  | restart

namespace ReconcileProcess

variable {σ : Type}

/-- `load`: a file that is not there leaves the default. -/
def load (saved : Option ReconcileState) : ReconcileState := saved.getD ⟨none, [], none⟩

def start (saved : Option ReconcileState) : ReconcileProcess := ⟨load saved, saved, []⟩

def apply (call : σ → SenderRequest → Reply × σ) (p : ReconcileProcess) : ReconcileEvent σ → ReconcileProcess
  | .pass x  =>
    let pass := x.run call p.state
    ⟨pass.state, some pass.state,
      p.history ++ (pass.asked.filterMap Reconciler.okId).map (fun id => (id, Reconcile.timestamp x.now))⟩
  | .restart => { p with state := load p.saved }

def run (call : σ → SenderRequest → Reply × σ) (p : ReconcileProcess) (evs : List (ReconcileEvent σ)) : ReconcileProcess :=
  evs.foldl (apply call) p

/-- What the reconciler remembers at the second `now`: the state is what is saved, and every request of the last
`period` seconds is in it. -/
structure Remembers (p : ReconcileProcess) (period now : Int) : Prop where
  saved   : p.state = load p.saved
  past    : ∀ e ∈ p.history, -CHRONO_SECS ≤ e.2.toInt ∧ e.2.toInt ≤ now
  held    : ∀ e ∈ p.history, now - e.2.toInt < period → e ∈ p.state.requested
  spaced  : p.history.Pairwise (fun a b => a.1 = b.1 → a.2.toInt + period ≤ b.2.toInt)

section

variable {call : σ → SenderRequest → Reply × σ} {p : ReconcileProcess} {x : ReconcileInput σ} {period : UInt64}

theorem kept_iff (hcfg : x.cfg.current.cleaner.reconcilePeriodSecs = period) (hperiod : period.toNat < 2 ^ 63) {t : Int64}
    (hlow : -CHRONO_SECS ≤ t.toInt) (hle : t.toInt ≤ secs x.now) :
    Reconcile.timestamp x.now - t < x.cfg.current.cleaner.reconcilePeriodSecs.toInt64 ↔
      secs x.now - t.toInt < period.toNat := by
  have hrange := x.nowInRange
  unfold CHRONO_SECS at hrange hlow
  have hsub : (Reconcile.timestamp x.now - t).toInt = secs x.now - t.toInt := by
    rw [Int64.toInt_sub, x.toInt_timestamp]
    exact Int.bmod_eq_of_le (by omega) (by omega)
  have hper : period.toInt64.toInt = period.toNat := by
    show period.toBitVec.toInt = _
    exact BitVec.toInt_eq_toNat_of_lt (by show 2 * period.toNat < 2 ^ 64; omega)
  rw [Int64.lt_iff_toInt_lt, hsub, hcfg, hper]

/-- **A pass keeps the memory**, and asks for nothing that is in it. -/
theorem Remembers.pass (hcfg : x.cfg.current.cleaner.reconcilePeriodSecs = period) (hperiod : period.toNat < 2 ^ 63)
    {now : Int} (h : p.Remembers period.toNat now) (hle : now ≤ secs x.now) :
    (p.apply call (.pass x)).Remembers period.toNat (secs x.now) := by
  have hstill : ∀ e ∈ p.history, secs x.now - e.2.toInt < period.toNat → e ∈ x.pruned p.state := by
    intro e he hyoung
    obtain ⟨hlow, hpast⟩ := h.past e he
    refine List.mem_filter.2 ⟨h.held e he (by omega), decide_eq_true ?_⟩
    exact (kept_iff hcfg hperiod hlow (by omega)).2 hyoung
  have hnew : ∀ e ∈ ((x.run call p.state).asked.filterMap Reconciler.okId).map (fun id => (id, Reconcile.timestamp x.now)),
      e.2.toInt = secs x.now := by
    intro e he
    obtain ⟨id, -, rfl⟩ := List.mem_map.1 he
    exact x.toInt_timestamp
  have hmemory := x.run_memory call p.state
  refine ⟨rfl, fun e he => ?_, fun e he hyoung => ?_, List.pairwise_append.2 ⟨h.spaced, ?_, fun e he e' he' hid => ?_⟩⟩
  · rcases List.mem_append.1 he with he | he
    · have := h.past e he
      omega
    · rw [hnew e he]
      exact ⟨x.nowInRange.1, Int.le_refl _⟩
  · rcases hmemory with ⟨hnone, hsame⟩ | ⟨hreq, -, -⟩
    · have he : e ∈ p.history := by
        rcases List.mem_append.1 he with he | he
        · exact he
        · rw [hnone] at he
          cases he
      have := h.past e he
      show e ∈ (x.run call p.state).state.requested
      rw [hsame]
      exact h.held e he (by omega)
    · show e ∈ (x.run call p.state).state.requested
      rw [hreq]
      rcases List.mem_append.1 he with he | he
      · exact List.mem_append_right _ (hstill e he hyoung)
      · refine List.mem_append_left _ ?_
        rw [List.map_reverse, List.mem_reverse]
        exact he
  · rcases hmemory with ⟨hnone, -⟩ | ⟨-, hnodup, -⟩
    · rw [hnone]
      exact List.Pairwise.nil
    · exact List.pairwise_map.2 (hnodup.imp (fun hne hid => absurd hid hne))
  · -- a file asked for less than the period ago is in the memory the loop looks at
    rw [hnew e' he']
    by_contra hearly
    obtain ⟨id, hok, rfl⟩ := List.mem_map.1 he'
    rcases hmemory with ⟨hnone, -⟩ | ⟨-, -, hfree⟩
    · rw [hnone] at hok
      cases hok
    · have hlook := hfree id hok
      have hin := hstill e he (by omega)
      have hsome : ((x.pruned p.state).lookup id).isSome = true :=
        List.lookup_isSome_iff.2 ⟨e, hin, by rw [hid]; exact beq_self_eq_true _⟩
      rw [hlook] at hsome
      cases hsome

theorem Remembers.restart {now : Int} (h : p.Remembers period.toNat now) :
    (p.apply call .restart).Remembers period.toNat now := by
  have hsame : p.apply call .restart = p := by
    show { p with state := load p.saved } = p
    rw [← h.saved]
  rw [hsame]
  exact h

theorem remembers_start (saved : Option ReconcileState) (period now : Int) : (start saved).Remembers period now :=
  ⟨rfl, (fun e he => by cases he), (fun e he => by cases he), List.Pairwise.nil⟩

end

/-- The passes among the events. -/
def passes (evs : List (ReconcileEvent σ)) : List (ReconcileInput σ) :=
  evs.filterMap (fun e => match e with | .pass x => some x | .restart => none)

/-- **The memory is kept along every run** whose clock does not go back. -/
theorem Remembers.run {call : σ → SenderRequest → Reply × σ} {period : UInt64} (hperiod : period.toNat < 2 ^ 63) :
    ∀ (evs : List (ReconcileEvent σ)) {p : ReconcileProcess} {now : Int},
      (∀ x ∈ passes evs, x.cfg.current.cleaner.reconcilePeriodSecs = period) →
      (passes evs).Pairwise (fun x y => x.now ≤ y.now) → (∀ x ∈ passes evs, now ≤ secs x.now) →
      p.Remembers period.toNat now → ∃ now', (p.run call evs).Remembers period.toNat now'
  | [], p, now, _, _, _, h              => ⟨now, h⟩
  | .restart :: evs, p, now, hcfg, hclock, hlater, h => Remembers.run hperiod evs hcfg hclock hlater h.restart
  | .pass x :: evs, p, now, hcfg, hclock, hlater, h => by
    have hhead : passes (.pass x :: evs) = x :: passes evs := rfl
    rw [hhead] at hcfg hclock hlater
    rw [List.pairwise_cons] at hclock
    refine Remembers.run hperiod evs (fun y hy => hcfg y (List.mem_cons_of_mem _ hy)) hclock.2 (fun y hy => ?_)
      (h.pass (hcfg x List.mem_cons_self) hperiod (hlater x List.mem_cons_self))
    exact Int.ediv_le_ediv (by decide) (hclock.1 y hy)

end ReconcileProcess

/-- **A lost file is asked for at most once a period.**  Passes at any time, one after another, with any snapshot, ground
and replies, and restarts that read the saved state back: two requests for a file that are answered `Ok` are from passes
at least the period apart.  And a row called missing that is not remembered is asked for, where the sender answers. -/
theorem requested_once_per_period {σ : Type} (call : σ → SenderRequest → Reply × σ) (saved : Option ReconcileState)
    (period : UInt64) (hperiod : period.toNat < 2 ^ 63) (evs : List (ReconcileEvent σ))
    (hcfg : ∀ x ∈ ReconcileProcess.passes evs, x.cfg.current.cleaner.reconcilePeriodSecs = period)
    (hclock : (ReconcileProcess.passes evs).Pairwise (fun x y => x.now ≤ y.now)) :
    (ReconcileProcess.run call (.start saved) evs).history.Pairwise
      (fun a b => a.1 = b.1 → a.2.toInt + (period.toNat : Int) ≤ b.2.toInt) ∧
    ∀ pre x post, evs = pre ++ .pass x :: post → x.status.isSome = true →
      ∀ snap rows, x.found = some (snap, .ok rows) → ∀ row, (row, Verdict.missing) ∈ x.plan rows →
        (x.pruned (ReconcileProcess.run call (.start saved) pre).state).lookup row.fileId = none →
        ∃ q ∈ (x.run call (ReconcileProcess.run call (.start saved) pre).state).asked,
          q.1 = Reconciler.resend row.fileId := by
  constructor
  · obtain ⟨now, h⟩ := @ReconcileProcess.Remembers.run σ call period hperiod evs (.start saved) (-CHRONO_SECS) hcfg hclock
      (fun x _ => x.nowInRange.1) (ReconcileProcess.remembers_start saved period.toNat _)
    exact h.spaced
  · intro pre x post _ hanswers snap rows hfound row hrow hnone
    rw [x.asked_run hfound, hanswers]
    exact Reconciler.exists_asked hrow hnone

namespace ReconcileInput

/-- A pass over a snapshot of one file that never landed, `secs` after 1970; the sender answers and has nothing queued. -/
def sample (secs : Fin (2 ^ 40)) : ReconcileInput Unit where
  cfg := .default
  finals := []
  found := some ([], .ok [⟨1, "/a".toList, 40, some 0, true, some 0⟩])
  listed := .fresh [] true
  ages _ := none
  status := some []
  view _ := .fresh [] true
  now := secs.val * 1000000000
  nowInRange := by
    have := secs.isLt
    unfold Parachuter.secs CHRONO_SECS
    omega
  env := ()

end ReconcileInput

/-- Six hours go by between the first pass and the last, and one between the first and the second; the reconciler is
restarted after each. -/
theorem requested_once_per_period_restarted :
    (ReconcileProcess.run (fun (u : Unit) _ => (.ok, u)) (.start none)
      [.pass (.sample 100000), .restart, .pass (.sample 103600), .restart, .pass (.sample 121600)]).history.Pairwise
      (fun a b => a.1 = b.1 → a.2.toInt + ((6 * 60 * 60 : UInt64).toNat : Int) ≤ b.2.toInt) := by
  refine (requested_once_per_period (fun (u : Unit) _ => (.ok, u)) none (6 * 60 * 60) (by decide) _ ?_ ?_).1
  · intro x hx
    simp only [ReconcileProcess.passes, List.filterMap_cons, List.filterMap_nil, List.mem_cons, List.not_mem_nil,
      or_false] at hx
    rcases hx with rfl | rfl | rfl
    · rfl
    · rfl
    · rfl
  · simp only [ReconcileProcess.passes, List.filterMap_cons, List.filterMap_nil]
    decide

end Parachuter
