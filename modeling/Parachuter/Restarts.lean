import Parachuter.Period
import Parachuter.Repeats
/-!
# Restarts — what the cleaner remembers over a stop

Both memories live in the process and are written at the end of a pass: the table with the whole seconds left to each
entry, which a restart counts from its own start, the reconciler's as it is.  A stop in the middle of a pass takes with it
what the pass has asked for.
-/
namespace Parachuter

open Blob (Bytes)

/-! ## The saved table -/

namespace DedupTable

/-- `save` at `now`: what has not expired, with the whole seconds left to it. -/
def save (t : DedupTable) (now : Nat) : List (Planned × Nat) :=
  t.entries.filterMap (fun e => if e.2 < now then none else some (e.1, (e.2 - now) / SECOND))

/-- `load` at `now`; without a file the table is empty. -/
def load (file : Option (List (Planned × Nat))) (ttl now : Nat) : DedupTable :=
  ⟨(file.getD []).foldl (fun es e => (e.1, now + SECOND * e.2) :: es.filter (fun x => x.1 ≠ e.1)) [], ttl⟩

/-- No key twice. -/
def Distinct (es : List (Planned × Nat)) : Prop := es.Pairwise (fun a b => a.1 ≠ b.1)

theorem lookup_save {key : Planned} {exp now : Nat} (hle : now ≤ exp) : ∀ {es : List (Planned × Nat)} {ttl : Nat},
    es.lookup key = some exp → (save ⟨es, ttl⟩ now).lookup key = some ((exp - now) / SECOND)
  | [], _, h           => by cases h
  | (a, b) :: es, ttl, h => by
    rw [List.lookup_cons] at h
    unfold save
    rw [List.filterMap_cons]
    by_cases ha : key = a
    · subst ha
      simp only [beq_self_eq_true, Option.some.injEq] at h
      subst h
      rw [if_neg (Nat.not_lt.2 hle)]
      exact List.lookup_cons_self
    · have hne : (key == a) = false := beq_false_of_ne ha
      rw [hne] at h
      have ih := @lookup_save key exp now hle es ttl h
      split
      · exact ih
      · rename_i hsome
        split at hsome
        · cases hsome
        · cases hsome
          rw [List.lookup_cons, hne]
          exact ih

theorem distinct_save {t : DedupTable} (h : Distinct t.entries) (now : Nat) : Distinct (t.save now) := by
  refine List.Pairwise.filterMap _ (fun a b hab c hc e he => ?_) h
  simp only [Option.ite_none_left_eq_some] at hc he
  rw [← Option.some.inj hc.2, ← Option.some.inj he.2]
  exact hab

/-- One entry of the file comes into the table. -/
def enter (now : Nat) (es : List (Planned × Nat)) (e : Planned × Nat) : List (Planned × Nat) :=
  (e.1, now + SECOND * e.2) :: es.filter (fun x => x.1 ≠ e.1)

theorem lookup_enter_self (now : Nat) (es : List (Planned × Nat)) (e : Planned × Nat) :
    (enter now es e).lookup e.1 = some (now + SECOND * e.2) := List.lookup_cons_self

/-- What stands under a key stays, if no later entry has that key. -/
theorem lookup_foldl_enter {key : Planned} {v now : Nat} : ∀ {es acc : List (Planned × Nat)}, (∀ e ∈ es, e.1 ≠ key) →
    acc.lookup key = some v → (es.foldl (enter now) acc).lookup key = some v
  | [], _, _, h         => h
  | e :: es, acc, hne, h => by
    have hkey : e.1 ≠ key := hne e List.mem_cons_self
    have hstep : (enter now acc e).lookup key = some v := by
      rw [enter, List.lookup_cons, beq_false_of_ne (Ne.symm hkey)]
      exact lookup_filter (by simpa using Ne.symm hkey) h
    exact @lookup_foldl_enter key v now es _ (fun e' he' => hne e' (List.mem_cons_of_mem _ he')) hstep

/-- What is loaded under a key is the file's entry for it, counted from now. -/
theorem lookup_load {key : Planned} {n : Nat} (ttl now : Nat) {file : List (Planned × Nat)} (hd : Distinct file)
    (h : file.lookup key = some n) : (load (some file) ttl now).entries.lookup key = some (now + SECOND * n) := by
  show (file.foldl (enter now) []).lookup key = _
  generalize ([] : List (Planned × Nat)) = acc
  induction file generalizing acc with
  | nil => cases h
  | cons e es ih =>
    obtain ⟨hfirst, hrest⟩ := List.pairwise_cons.1 hd
    rw [List.lookup_cons] at h
    rw [List.foldl_cons]
    by_cases hkey : key = e.1
    · subst hkey
      rw [beq_self_eq_true, Option.some.injEq] at h
      subst h
      exact lookup_foldl_enter (fun e' he' heq => hfirst e' he' heq.symm) (lookup_enter_self now acc e)
    · rw [beq_false_of_ne hkey] at h
      exact ih hrest h _

theorem distinct_insert {es : List (Planned × Nat)} (h : Distinct es) (key : Planned) (exp : Nat) :
    Distinct ((key, exp) :: es.filter (fun e => e.1 ≠ key)) := by
  refine List.pairwise_cons.2 ⟨fun e he => ?_, h.filter _⟩
  have := (List.mem_filter.1 he).2
  simp only [ne_eq, decide_not, Bool.not_eq_true', decide_eq_false_iff_not] at this
  exact Ne.symm this

theorem distinct_load (file : Option (List (Planned × Nat))) (ttl now : Nat) : Distinct (load file ttl now).entries := by
  have hall : ∀ (es acc : List (Planned × Nat)), Distinct acc → Distinct (es.foldl (enter now) acc) := by
    intro es
    induction es with
    | nil => exact fun acc h => h
    | cons e es ih => exact fun acc h => ih _ (distinct_insert h e.1 _)
  exact hall _ [] List.Pairwise.nil

end DedupTable

theorem Cleaner.distinct_after {σ : Type} {call : σ → SenderRequest → Reply × σ}
    {status : Option (List SenderQueueSnapshot)} {budget : LinkBudget} {rd : Readings} {dedup : DedupTable} {env : σ}
    (h : DedupTable.Distinct dedup.entries) (planned : List Planned) :
    DedupTable.Distinct (after call status budget rd dedup env planned).dedup.entries := by
  refine @issued_induction σ call status budget rd dedup env (fun _ _ t => DedupTable.Distinct t.entries) planned h
    (fun _ _ _ h => h) (fun pre p _ _ hasks hpre => ?_) planned [] (List.append_nil _).symm
  rw [DedupTable.tryInsert_fresh hasks.fresh]
  exact DedupTable.distinct_insert hpre p _

/-! ## The table over stops -/

/-- A request answered `Ok`: when its entry in the table expires, and the whole seconds that were left to it at the last
save, if there was one since. -/
structure TableRecord where
  key        : Planned
  answeredAt : Nat
  expires    : Nat
  kept       : Option Nat

namespace TableRecord

def saved (now : Nat) (r : TableRecord) : TableRecord := { r with kept := some ((r.expires - now) / SECOND) }

def loaded (now : Nat) (r : TableRecord) : TableRecord := { r with expires := now + SECOND * r.kept.getD 0 }

/-- The requests of a pass that were answered `Ok`. -/
def ofIssues (ttl : Nat) (is : List Cleaner.Issue) : List TableRecord :=
  (is.filter (fun i => i.reply = .ok)).map (fun i => ⟨i.planned, i.answeredAt, i.lookedUp + ttl, none⟩)

end TableRecord

/-- The table, its file, and the requests answered `Ok` before the last start of the process and since. -/
structure TableMemory where
  dedup  : DedupTable
  file   : Option (List (Planned × Nat))
  before : List TableRecord
  since  : List TableRecord

namespace TableMemory

section

variable {σ : Type} (crc : Bytes → UInt32) (call : σ → SenderRequest → Reply × σ) (m : TableMemory)
  (x : Cleaner.PassInput σ)

def records : List TableRecord := m.before ++ m.since

def issued : List Cleaner.Issue :=
  Cleaner.issued call x.status x.cfg.budget x.rd m.dedup x.env (x.planned crc)

/-- A pass up to its save. -/
def asked : TableMemory :=
  match Cleaner.runPass x.cfg call x.status (x.planned crc) x.rd.lookedUp m.dedup x.env with
  | .error _ => m
  | .ok pass => { m with dedup := pass.dedup, since := m.since ++ TableRecord.ofIssues m.dedup.ttl (m.issued crc call x) }

/-- The save at its end. -/
def save (now : Nat) : TableMemory where
  dedup := m.dedup
  file := some (m.dedup.save now)
  before := m.before.map (TableRecord.saved now)
  since := m.since.map (TableRecord.saved now)

/-- A pass cut short after `k` answers: what it did to the table is lost. -/
def cut (k : Nat) : TableMemory :=
  { m with since := m.since ++ TableRecord.ofIssues m.dedup.ttl ((m.issued crc call x).take k) }

def restart (now : Nat) : TableMemory where
  dedup := .load m.file m.dedup.ttl now
  file := m.file
  before := m.records.map (TableRecord.loaded now)
  since := []

/-- Every request of the last time to live was saved after it was answered, and the whole seconds left to it then,
counted from `now`, reach to the end of its time. -/
def Kept (now : Nat) : Prop :=
  ∀ r ∈ m.records, now < r.answeredAt + m.dedup.ttl →
    ∃ n, r.kept = some n ∧ r.answeredAt + m.dedup.ttl ≤ now + SECOND * n

/-- Every request from before the last start is in the table to the end of its time. -/
def Remembered (now : Nat) : Prop :=
  ∀ r ∈ m.before, now < r.answeredAt + m.dedup.ttl →
    ∃ exp, m.dedup.entries.lookup r.key = some exp ∧ r.answeredAt + m.dedup.ttl ≤ exp

/-- A pass makes none of them again within its time. -/
def NotAgain : Prop :=
  ∀ i ∈ m.issued crc call x, ∀ r ∈ m.before, r.key = i.planned → r.answeredAt + m.dedup.ttl ≤ i.lookedUp

/-- What holds of the table, its file and the records at `now`. -/
structure Inv (now : Nat) : Prop where
  distinct  : DedupTable.Distinct m.dedup.entries
  remembers : m.dedup.Remembers now (m.records.map (fun r => (r.key, r.expires)))
  lasting   : ∀ r ∈ m.before, now < r.answeredAt + m.dedup.ttl → r.answeredAt + m.dedup.ttl ≤ r.expires
  inFile    : ∀ r ∈ m.records, ∀ n, r.kept = some n → SECOND * n ≤ m.dedup.ttl ∧
    (0 < n → ∃ f n', m.file = some f ∧ DedupTable.Distinct f ∧ f.lookup r.key = some n' ∧ n ≤ n')

end

variable {σ : Type} {crc : Bytes → UInt32} {call : σ → SenderRequest → Reply × σ} {m : TableMemory}
  {x : Cleaner.PassInput σ} {now : Nat}

theorem asked_eq (m : TableMemory) (x : Cleaner.PassInput σ) : m.asked crc call x =
    { m with
      dedup := (Cleaner.after call x.status x.cfg.budget x.rd m.dedup x.env (x.planned crc)).dedup.gc (x.endsAt crc)
      since := m.since ++ TableRecord.ofIssues m.dedup.ttl (m.issued crc call x) } := by
  unfold asked
  rw [Cleaner.runPass_eq]
  rfl

@[simp] theorem ttl_asked (m : TableMemory) (x : Cleaner.PassInput σ) : (m.asked crc call x).dedup.ttl = m.dedup.ttl := by
  rw [asked_eq]
  exact Cleaner.ttl_after _

theorem Inv.later (h : m.Inv now) {now' : Nat} (hle : now ≤ now') : m.Inv now' :=
  ⟨h.distinct, h.remembers.later hle, fun r hr hlt => h.lasting r hr (Nat.lt_of_le_of_lt hle hlt), h.inFile⟩

theorem Inv.remembered (h : m.Inv now) : m.Remembered now := by
  intro r hr hlt
  have hlast := h.lasting r hr hlt
  obtain ⟨exp, hexp, hle⟩ := h.remembers.held (r.key, r.expires)
    (List.mem_map.2 ⟨r, List.mem_append_left _ hr, rfl⟩) (Nat.lt_of_lt_of_le hlt hlast)
  exact ⟨exp, hexp, Nat.le_trans hlast hle⟩

/-- **A request from before the last start is not made again** within its time. -/
theorem Inv.notAgain (h : m.Inv now) (hle : now ≤ x.rd.lookedUp 0) : m.NotAgain crc call x := by
  intro i hi r hr hkey
  by_contra hearly
  have hexp := @Cleaner.expired_of_issued σ call x.status x.cfg.budget x.rd m.dedup x.env _ (h.remembers.later hle) _ i hi
    (r.key, r.expires) (List.mem_map.2 ⟨r, List.mem_append_left _ hr, rfl⟩) hkey
  have hnow : now ≤ i.lookedUp := by
    obtain ⟨k, hk⟩ := Cleaner.lookedUp_of_issued hi
    rw [hk]
    exact Nat.le_trans hle (x.rd.mono (Nat.zero_le k))
  have hlast := h.lasting r hr (by omega)
  omega

/-- A pass keeps what is remembered, and remembers what it asks for. -/
theorem Inv.asked (h : m.Inv now) (hle : now ≤ x.rd.lookedUp 0) : (m.asked crc call x).Inv (x.endsAt crc) := by
  have hmono : x.rd.lookedUp 0 ≤ x.endsAt crc := x.rd.mono (Nat.zero_le _)
  have hafter := @Cleaner.remembers_after σ call x.status x.cfg.budget x.rd m.dedup x.env _ (h.remembers.later hle)
    (x.planned crc)
  have hnew : ∀ r ∈ (m.asked crc call x).records, r ∈ m.records ∨
      r.kept = none ∧ (r.key, r.expires) ∈ (m.issued crc call x).map (fun i => (i.planned, i.lookedUp + m.dedup.ttl)) := by
    intro r hr
    rw [asked_eq] at hr
    unfold records at hr
    rw [← List.append_assoc] at hr
    rcases List.mem_append.1 hr with hr | hr
    · exact .inl hr
    · obtain ⟨i, hi, rfl⟩ := List.mem_map.1 hr
      exact .inr ⟨rfl, List.mem_map.2 ⟨i, (List.mem_filter.1 hi).1, rfl⟩⟩
  have hrecs : ∀ e ∈ (m.asked crc call x).records.map (fun r => (r.key, r.expires)),
      e ∈ m.records.map (fun r => (r.key, r.expires)) ++
        (m.issued crc call x).map (fun i => (i.planned, i.lookedUp + m.dedup.ttl)) := by
    intro e he
    obtain ⟨r, hr, rfl⟩ := List.mem_map.1 he
    rcases hnew r hr with hold | ⟨-, hmem⟩
    · exact List.mem_append_left _ (List.mem_map.2 ⟨r, hold, rfl⟩)
    · exact List.mem_append_right _ hmem
  have hgc := hafter.gc
  refine ⟨?_, ⟨fun e he => ?_, fun e he hlt => ?_⟩, fun r hr hlt => ?_, fun r hr n hn => ?_⟩
  · rw [asked_eq]
    exact (Cleaner.distinct_after h.distinct _).filter _
  · rw [asked_eq]
    exact hgc.bound e (hrecs e he)
  · rw [asked_eq]
    exact hgc.held e (hrecs e he) hlt
  · rw [ttl_asked] at hlt ⊢
    rw [asked_eq] at hr
    exact h.lasting r hr (by omega)
  · rw [ttl_asked]
    rcases hnew r hr with hold | ⟨hnone, -⟩
    · rw [asked_eq]
      exact h.inFile r hold n hn
    · rw [hnone] at hn
      cases hn

theorem Inv.save (h : m.Inv now) {s : Nat} (hle : now ≤ s) : (m.save s).Inv s := by
  have h' := h.later hle
  have hrec : ∀ r ∈ (m.save s).records, ∃ r' ∈ m.records, r = r'.saved s := by
    intro r hr
    have hmap : (m.save s).records = m.records.map (TableRecord.saved s) := (List.map_append).symm
    rw [hmap] at hr
    obtain ⟨r', hr', rfl⟩ := List.mem_map.1 hr
    exact ⟨r', hr', rfl⟩
  refine ⟨h'.distinct, ⟨fun e he => ?_, fun e he hlt => ?_⟩, fun r hr hlt => ?_, fun r hr n hn => ?_⟩
  · obtain ⟨r, hr, rfl⟩ := List.mem_map.1 he
    obtain ⟨r', hr', rfl⟩ := hrec r hr
    exact h'.remembers.bound (r'.key, r'.expires) (List.mem_map.2 ⟨r', hr', rfl⟩)
  · obtain ⟨r, hr, rfl⟩ := List.mem_map.1 he
    obtain ⟨r', hr', rfl⟩ := hrec r hr
    exact h'.remembers.held (r'.key, r'.expires) (List.mem_map.2 ⟨r', hr', rfl⟩) hlt
  · obtain ⟨r', hr', rfl⟩ := List.mem_map.1 hr
    exact h'.lasting r' hr' hlt
  · obtain ⟨r', hr', rfl⟩ := hrec r hr
    cases hn
    have hbound : r'.expires ≤ s + m.dedup.ttl :=
      h'.remembers.bound (r'.key, r'.expires) (List.mem_map.2 ⟨r', hr', rfl⟩)
    have hfloor := Nat.mul_div_le (r'.expires - s) SECOND
    have httl : SECOND * ((r'.expires - s) / SECOND) ≤ m.dedup.ttl := by omega
    refine ⟨httl, fun hpos => ?_⟩
    have hleft : s < r'.expires := by
      by_contra hgone
      rw [Nat.sub_eq_zero_of_le (Nat.le_of_not_lt hgone), Nat.zero_div] at hpos
      exact Nat.lt_irrefl 0 hpos
    obtain ⟨exp, hexp, hle⟩ := h'.remembers.held (r'.key, r'.expires) (List.mem_map.2 ⟨r', hr', rfl⟩) hleft
    refine ⟨_, _, rfl, DedupTable.distinct_save h'.distinct s, DedupTable.lookup_save (by omega) hexp, ?_⟩
    exact Nat.div_le_div_right (Nat.sub_le_sub_right hle s)

/-- What is left to a record at its save is in the file, and no more than the time to live. -/
def InFile (m : TableMemory) : Prop :=
  ∀ r ∈ m.records, ∀ n, r.kept = some n → SECOND * n ≤ m.dedup.ttl ∧
    (0 < n → ∃ f n', m.file = some f ∧ DedupTable.Distinct f ∧ f.lookup r.key = some n' ∧ n ≤ n')

/-- **After a restart** within the condition everything is remembered that has to be. -/
theorem restart_inv (hfile : m.InFile) (hkept : m.Kept now) : (m.restart now).Inv now := by
  have hrec : ∀ r ∈ (m.restart now).records, ∃ r' ∈ m.records, r = r'.loaded now := by
    intro r hr
    unfold records at hr
    rw [show (m.restart now).since = [] from rfl, List.append_nil] at hr
    obtain ⟨r', hr', rfl⟩ := List.mem_map.1 hr
    exact ⟨r', hr', rfl⟩
  refine ⟨DedupTable.distinct_load _ _ _, ⟨fun e he => ?_, fun e he hlt => ?_⟩, fun r hr hlt => ?_, fun r hr n hn => ?_⟩
  · obtain ⟨r, hr, rfl⟩ := List.mem_map.1 he
    obtain ⟨r', hr', rfl⟩ := hrec r hr
    show now + SECOND * r'.kept.getD 0 ≤ now + m.dedup.ttl
    cases hk : r'.kept with
    | none =>
      rw [Option.getD_none, Nat.mul_zero]
      exact Nat.add_le_add_left (Nat.zero_le _) now
    | some n =>
      rw [Option.getD_some]
      exact Nat.add_le_add_left (hfile r' hr' n hk).1 now
  · obtain ⟨r, hr, rfl⟩ := List.mem_map.1 he
    obtain ⟨r', hr', rfl⟩ := hrec r hr
    have hlt' : now < now + SECOND * r'.kept.getD 0 := hlt
    cases hk : r'.kept with
    | none =>
      rw [hk, Option.getD_none, Nat.mul_zero] at hlt'
      exact absurd hlt' (Nat.lt_irrefl now)
    | some n =>
      rw [hk, Option.getD_some] at hlt'
      have hpos : 0 < n := by
        by_contra h0
        rw [Nat.eq_zero_of_not_pos h0, Nat.mul_zero] at hlt'
        exact Nat.lt_irrefl now hlt'
      obtain ⟨f, n', hf, hd, hlook, hle⟩ := (hfile r' hr' n hk).2 hpos
      refine ⟨now + SECOND * n', ?_, ?_⟩
      · show (DedupTable.load m.file m.dedup.ttl now).entries.lookup r'.key = _
        rw [hf]
        exact DedupTable.lookup_load _ _ hd hlook
      · show now + SECOND * r'.kept.getD 0 ≤ _
        rw [hk, Option.getD_some]
        exact Nat.add_le_add_left (Nat.mul_le_mul_left _ hle) now
  · obtain ⟨r', hr', rfl⟩ := List.mem_map.1 hr
    obtain ⟨n, hk, hle⟩ := hkept r' hr' hlt
    show r'.answeredAt + m.dedup.ttl ≤ now + SECOND * r'.kept.getD 0
    rw [hk, Option.getD_some]
    exact hle
  · obtain ⟨r', hr', rfl⟩ := hrec r hr
    exact hfile r' hr' n hn

/-- A pass cut short adds only records that were not saved. -/
theorem Inv.inFile_cut (h : m.Inv now) (k : Nat) : (m.cut crc call x k).InFile := by
  intro r hr n hn
  unfold records cut at hr
  rw [← List.append_assoc] at hr
  rcases List.mem_append.1 hr with hr | hr
  · exact h.inFile r hr n hn
  · obtain ⟨i, -, rfl⟩ := List.mem_map.1 hr
    cases hn

end TableMemory

/-! ## The reconciler's memory over stops -/

/-- A whole file asked for and answered `Ok`: the pass's time as it is entered, the second of the answer, and whether the
memory has been saved since. -/
structure WholeRecord where
  fileId     : FileId
  passAt     : Int64
  answeredAt : Int
  saved      : Bool

/-- A pass of the reconciler with the seconds at which its requests are answered. -/
structure AnsweredPass (σ : Type) where
  input    : ReconcileInput σ
  answered : Nat → Int
  later    : ∀ j, secs input.now ≤ answered j

/-- The files asked for in the first answers of a pass. -/
def AnsweredPass.records {σ : Type} (x : AnsweredPass σ) (asked : List (SenderRequest × Reply)) : List WholeRecord :=
  asked.zipIdx.filterMap (fun qj => (Reconciler.okId qj.1).map
    (fun id => ⟨id, Reconcile.timestamp x.input.now, x.answered qj.2, false⟩))

structure WholeMemory where
  state   : ReconcileState
  file    : Option ReconcileState
  records : List WholeRecord

namespace WholeMemory

section

variable {σ : Type} (call : σ → SenderRequest → Reply × σ) (period : UInt64) (m : WholeMemory) (x : AnsweredPass σ)

/-- A pass up to its save. -/
def asked : WholeMemory :=
  let pass := x.input.run call m.state
  { m with state := pass.state, records := m.records ++ x.records pass.asked }

def save : WholeMemory :=
  { m with file := some m.state, records := m.records.map (fun r => { r with saved := true }) }

/-- A pass cut short after `k` answers. -/
def cut (k : Nat) : WholeMemory :=
  { m with records := m.records ++ x.records ((x.input.run call m.state).asked.take k) }

def restart : WholeMemory := { m with state := ReconcileProcess.load m.file }

/-- Every request of the last period was saved after it was answered. -/
def Kept (now : Int) : Prop := ∀ r ∈ m.records, now < r.answeredAt + period.toNat → r.saved = true

/-- Every request of the last period is remembered. -/
def Remembered (now : Int) : Prop :=
  ∀ r ∈ m.records, now < r.answeredAt + period.toNat → (r.fileId, r.passAt) ∈ m.state.requested

/-- A pass makes none of them again within the period. -/
def NotAgain : Prop :=
  ∀ q ∈ (x.input.run call m.state).asked, ∀ r ∈ m.records, q.1 = Reconciler.resend r.fileId →
    r.answeredAt + period.toNat ≤ secs x.input.now

/-- The pass is not dated a period after the start of an earlier one and less than that after an answer in it. -/
def InTime : Prop :=
  ∀ r ∈ m.records, secs x.input.now < r.answeredAt + period.toNat → secs x.input.now < r.passAt.toInt + period.toNat

structure Inv (now : Int) : Prop where
  past   : ∀ r ∈ m.records, -CHRONO_SECS ≤ r.passAt.toInt ∧ r.passAt.toInt ≤ now
  held   : m.Remembered period now
  inFile : ∀ r ∈ m.records, r.saved = true → now < r.answeredAt + period.toNat →
    (r.fileId, r.passAt) ∈ (ReconcileProcess.load m.file).requested

end

variable {σ : Type} {call : σ → SenderRequest → Reply × σ} {period : UInt64} {m : WholeMemory} {x : AnsweredPass σ}
  {now : Int}

theorem mem_records {asked : List (SenderRequest × Reply)} {r : WholeRecord} (h : r ∈ x.records asked) :
    r.fileId ∈ asked.filterMap Reconciler.okId ∧ r.passAt = Reconcile.timestamp x.input.now ∧ r.saved = false := by
  obtain ⟨⟨q, j⟩, hq, hr⟩ := List.mem_filterMap.1 h
  obtain ⟨id, hid, rfl⟩ := Option.map_eq_some_iff.1 hr
  exact ⟨List.mem_filterMap.2 ⟨q, List.fst_mem_of_mem_zipIdx hq, hid⟩, rfl, rfl⟩

theorem Inv.later (h : m.Inv period now) {now' : Int} (hle : now ≤ now') : m.Inv period now' := by
  refine ⟨fun r hr => ?_, fun r hr hlt => h.held r hr (by omega), fun r hr hs hlt => h.inFile r hr hs (by omega)⟩
  have := h.past r hr
  omega

theorem Inv.pruned (hcfg : x.input.cfg.current.cleaner.reconcilePeriodSecs = period) (hperiod : period.toNat < 2 ^ 63)
    (h : m.Inv period now) (hle : now ≤ secs x.input.now) (htime : m.InTime period x) :
    ∀ r ∈ m.records, secs x.input.now < r.answeredAt + period.toNat → (r.fileId, r.passAt) ∈ x.input.pruned m.state := by
  intro r hr hlt
  obtain ⟨hlow, hpast⟩ := h.past r hr
  have hyoung := htime r hr hlt
  refine List.mem_filter.2 ⟨h.held r hr (by omega), decide_eq_true ?_⟩
  exact (ReconcileProcess.kept_iff hcfg hperiod hlow (by omega)).2 (by omega)

/-- **A file asked for within the period is not asked for again.** -/
theorem Inv.notAgain (hcfg : x.input.cfg.current.cleaner.reconcilePeriodSecs = period) (hperiod : period.toNat < 2 ^ 63)
    (h : m.Inv period now) (hle : now ≤ secs x.input.now) (htime : m.InTime period x) : m.NotAgain call period x := by
  intro q hq r hr hid
  by_contra hearly
  have hin := h.pruned hcfg hperiod hle htime r hr (by omega)
  have hsome : ((x.input.pruned m.state).lookup r.fileId).isSome = true :=
    List.lookup_isSome_iff.2 ⟨_, hin, beq_self_eq_true _⟩
  rw [ReconcileInput.pruned_of_asked hq hid] at hsome
  cases hsome

theorem Inv.asked (hcfg : x.input.cfg.current.cleaner.reconcilePeriodSecs = period) (hperiod : period.toNat < 2 ^ 63)
    (h : m.Inv period now) (hle : now ≤ secs x.input.now) (htime : m.InTime period x) :
    (m.asked call x).Inv period (secs x.input.now) := by
  have h' := h.later hle
  have hmemory := x.input.run_memory call m.state
  refine ⟨fun r hr => ?_, fun r hr hlt => ?_, fun r hr hs hlt => ?_⟩
  · rcases List.mem_append.1 hr with hr | hr
    · exact h'.past r hr
    · rw [(mem_records hr).2.1, x.input.toInt_timestamp]
      exact ⟨x.input.nowInRange.1, Int.le_refl _⟩
  · show _ ∈ (x.input.run call m.state).state.requested
    rcases hmemory with ⟨hnone, hsame⟩ | ⟨hreq, -, -⟩
    · have hold : r ∈ m.records := by
        rcases List.mem_append.1 hr with hr | hr
        · exact hr
        · have := (mem_records hr).1
          rw [hnone] at this
          cases this
      rw [hsame]
      exact h'.held r hold hlt
    · rw [hreq]
      rcases List.mem_append.1 hr with hr | hr
      · exact List.mem_append_right _ (h.pruned hcfg hperiod hle htime r hr hlt)
      · obtain ⟨hid, hat, -⟩ := mem_records hr
        refine List.mem_append_left _ (List.mem_map.2 ⟨r.fileId, List.mem_reverse.2 hid, ?_⟩)
        rw [hat]
  · rcases List.mem_append.1 hr with hr | hr
    · exact h'.inFile r hr hs hlt
    · rw [(mem_records hr).2.2] at hs
      cases hs

theorem Inv.save (h : m.Inv period now) : m.save.Inv period now := by
  refine ⟨fun r hr => ?_, fun r hr hlt => ?_, fun r hr _ hlt => ?_⟩
  · obtain ⟨r', hr', rfl⟩ := List.mem_map.1 hr
    exact h.past r' hr'
  · obtain ⟨r', hr', rfl⟩ := List.mem_map.1 hr
    exact h.held r' hr' hlt
  · obtain ⟨r', hr', rfl⟩ := List.mem_map.1 hr
    exact h.held r' hr' hlt

theorem Inv.restart (h : m.Inv period now) (hkept : m.Kept period now) : m.restart.Inv period now :=
  ⟨h.past, fun r hr hlt => h.inFile r hr (hkept r hr hlt) hlt, h.inFile⟩

theorem Inv.restart_cut (h : m.Inv period now) {k : Nat} (hle : secs x.input.now ≤ now)
    (hkept : (m.cut call x k).Kept period now) : (m.cut call x k).restart.Inv period now := by
  have hinFile : ∀ r ∈ (m.cut call x k).records, r.saved = true → now < r.answeredAt + period.toNat →
      (r.fileId, r.passAt) ∈ (ReconcileProcess.load m.file).requested := by
    intro r hr hs hlt
    rcases List.mem_append.1 hr with hr | hr
    · exact h.inFile r hr hs hlt
    · rw [(mem_records hr).2.2] at hs
      cases hs
  refine ⟨fun r hr => ?_, fun r hr hlt => hinFile r hr (hkept r hr hlt) hlt, hinFile⟩
  rcases List.mem_append.1 hr with hr | hr
  · exact h.past r hr
  · rw [(mem_records hr).2.1, x.input.toInt_timestamp]
    exact ⟨x.input.nowInRange.1, hle⟩

end WholeMemory

/-! ## Runs with stops -/

/-- The clocks at a new start of the process. -/
structure Restart where
  now : Nat
  utc : Int

/-- What happens to a cleaner.  A save may fail; a stop comes between two passes, or after `k` answers of one. -/
inductive CleanerEvent (σ : Type)
  | pass (x : Cleaner.PassInput σ) (saved : Option Nat)
  | reconcile (x : AnsweredPass σ) (saved : Bool)
  | stop (r : Restart)
  | stopInPass (x : Cleaner.PassInput σ) (k : Nat) (r : Restart)
  | stopInReconcile (x : AnsweredPass σ) (k : Nat) (r : Restart)

structure CleanerWorld where
  table : TableMemory
  whole : WholeMemory

namespace CleanerWorld

def start (tableFile : Option (List (Planned × Nat))) (stateFile : Option ReconcileState) (ttl now : Nat) : CleanerWorld :=
  ⟨⟨.load tableFile ttl now, tableFile, [], []⟩, ⟨ReconcileProcess.load stateFile, stateFile, []⟩⟩

structure Inv (w : CleanerWorld) (period : UInt64) (now : Nat) (utc : Int) : Prop where
  table : w.table.Inv now
  whole : w.whole.Inv period utc

theorem inv_start (tableFile : Option (List (Planned × Nat))) (stateFile : Option ReconcileState) (ttl now : Nat)
    (period : UInt64) (utc : Int) : (start tableFile stateFile ttl now).Inv period now utc := by
  refine ⟨⟨DedupTable.distinct_load _ _ _, ⟨?_, ?_⟩, ?_, ?_⟩, ⟨?_, ?_, ?_⟩⟩
  all_goals exact fun _ h => by cases h

end CleanerWorld

namespace CleanerEvent

section

variable {σ : Type} (crc : Bytes → UInt32) (call : σ → SenderRequest → Reply × σ) (period : UInt64)

def apply (w : CleanerWorld) : CleanerEvent σ → CleanerWorld
  | .pass x none           => { w with table := w.table.asked crc call x }
  | .pass x (some s)       => { w with table := (w.table.asked crc call x).save s }
  | .reconcile x false     => { w with whole := w.whole.asked call x }
  | .reconcile x true      => { w with whole := (w.whole.asked call x).save }
  | .stop r                => ⟨w.table.restart r.now, w.whole.restart⟩
  | .stopInPass x k r      => ⟨(w.table.cut crc call x k).restart r.now, w.whole.restart⟩
  | .stopInReconcile x k r => ⟨w.table.restart r.now, (w.whole.cut call x k).restart⟩

def run (w : CleanerWorld) (evs : List (CleanerEvent σ)) : CleanerWorld := evs.foldl (apply crc call) w

/-- The period is the configured one in every pass of the reconciler. -/
def HasPeriod : CleanerEvent σ → Prop
  | .reconcile x _         => x.input.cfg.current.cleaner.reconcilePeriodSecs = period
  | .stopInReconcile x _ _ => x.input.cfg.current.cleaner.reconcilePeriodSecs = period
  | _                      => True

/-- The event lies between two readings of the clocks, the monotonic one and the calendar's. -/
def Between (now : Nat) (utc : Int) (now' : Nat) (utc' : Int) : CleanerEvent σ → Prop
  | .pass x none           => (now ≤ x.rd.lookedUp 0 ∧ x.endsAt crc ≤ now') ∧ utc ≤ utc'
  | .pass x (some s)       => (now ≤ x.rd.lookedUp 0 ∧ x.endsAt crc ≤ s ∧ s ≤ now') ∧ utc ≤ utc'
  | .reconcile x _         => now ≤ now' ∧ utc ≤ secs x.input.now ∧ secs x.input.now ≤ utc'
  | .stop r                => (now ≤ r.now ∧ r.now ≤ now') ∧ utc ≤ r.utc ∧ r.utc ≤ utc'
  | .stopInPass x _ r      => (now ≤ x.rd.lookedUp 0 ∧ r.now ≤ now') ∧ utc ≤ r.utc ∧ r.utc ≤ utc'
  | .stopInReconcile x _ r =>
    (now ≤ r.now ∧ r.now ≤ now') ∧ utc ≤ secs x.input.now ∧ secs x.input.now ≤ r.utc ∧ r.utc ≤ utc'

/-- The condition on an event: at a stop everything that has to be remembered was saved after its answer, and the table's
entries not so late that the fraction of a second they lose is missed; no pass of the reconciler is dated where the time
its answers took would matter. -/
def Durable (w : CleanerWorld) : CleanerEvent σ → Prop
  | .pass _ _              => True
  | .reconcile x _         => w.whole.InTime period x
  | .stop r                => w.table.Kept r.now ∧ w.whole.Kept period r.utc
  | .stopInPass x k r      => (w.table.cut crc call x k).Kept r.now ∧ w.whole.Kept period r.utc
  | .stopInReconcile x k r => w.whole.InTime period x ∧ w.table.Kept r.now ∧ (w.whole.cut call x k).Kept period r.utc

/-- A pass makes no request again that was answered `Ok` within its time before the last start, and after a restart every
such request is remembered. -/
def Safe (w : CleanerWorld) (e : CleanerEvent σ) : Prop :=
  match e with
  | .pass x _              => w.table.NotAgain crc call x
  | .reconcile x _         => w.whole.NotAgain call period x
  | .stop r                =>
    (apply crc call w e).table.Remembered r.now ∧ (apply crc call w e).whole.Remembered period r.utc
  | .stopInPass x _ r      => w.table.NotAgain crc call x ∧
    (apply crc call w e).table.Remembered r.now ∧ (apply crc call w e).whole.Remembered period r.utc
  | .stopInReconcile x _ r => w.whole.NotAgain call period x ∧
    (apply crc call w e).table.Remembered r.now ∧ (apply crc call w e).whole.Remembered period r.utc

end

variable {σ : Type} {crc : Bytes → UInt32} {call : σ → SenderRequest → Reply × σ} {period : UInt64}

/-- **One event within the condition** is safe and keeps the invariant. -/
theorem step (hperiod : period.toNat < 2 ^ 63) {w : CleanerWorld} {now now' : Nat} {utc utc' : Int}
    (h : w.Inv period now utc) {e : CleanerEvent σ} (hcfg : e.HasPeriod period) (hclock : e.Between crc now utc now' utc')
    (hdur : e.Durable crc call period w) :
    e.Safe crc call period w ∧ (e.apply crc call w).Inv period now' utc' := by
  cases e with
  | pass x saved =>
    cases saved with
    | none =>
      obtain ⟨⟨hfrom, hto⟩, hutc⟩ := hclock
      exact ⟨h.table.notAgain hfrom, (h.table.asked hfrom).later hto, h.whole.later hutc⟩
    | some s =>
      obtain ⟨⟨hfrom, hends, hto⟩, hutc⟩ := hclock
      exact ⟨h.table.notAgain hfrom, ((h.table.asked hfrom).save hends).later hto, h.whole.later hutc⟩
  | reconcile x saved =>
    obtain ⟨hnow, hfrom, hto⟩ := hclock
    have hasked := @WholeMemory.Inv.asked σ call period w.whole x utc hcfg hperiod h.whole hfrom hdur
    refine ⟨h.whole.notAgain hcfg hperiod hfrom hdur, ?_⟩
    cases saved with
    | false => exact ⟨h.table.later hnow, hasked.later hto⟩
    | true => exact ⟨h.table.later hnow, hasked.save.later hto⟩
  | stop r =>
    obtain ⟨⟨-, hto⟩, hfrom', hto'⟩ := hclock
    have htable := TableMemory.restart_inv h.table.inFile hdur.1
    have hwhole := (h.whole.later hfrom').restart hdur.2
    exact ⟨⟨htable.remembered, hwhole.held⟩, htable.later hto, hwhole.later hto'⟩
  | stopInPass x k r =>
    obtain ⟨⟨hfrom, hto⟩, hfrom', hto'⟩ := hclock
    have htable := TableMemory.restart_inv (h.table.inFile_cut k) hdur.1
    have hwhole := (h.whole.later hfrom').restart hdur.2
    exact ⟨⟨h.table.notAgain hfrom, htable.remembered, hwhole.held⟩, htable.later hto, hwhole.later hto'⟩
  | stopInReconcile x k r =>
    obtain ⟨⟨-, hto⟩, hfrom', hdated, hto'⟩ := hclock
    have htable := TableMemory.restart_inv h.table.inFile hdur.2.1
    have hwhole := (h.whole.later (Int.le_trans hfrom' hdated)).restart_cut hdated hdur.2.2
    exact ⟨⟨h.whole.notAgain hcfg hperiod hfrom' hdur.1, htable.remembered, hwhole.held⟩, htable.later hto,
      hwhole.later hto'⟩

theorem run_concat (w : CleanerWorld) (evs : List (CleanerEvent σ)) (e : CleanerEvent σ) :
    run crc call w (evs ++ [e]) = apply crc call (run crc call w evs) e := List.foldl_append

end CleanerEvent

/-- **When a restart of the cleaner forgets nothing.**  Passes of either kind and stops at any point of them; `now j` and
`utc j` are the clocks before the `j`-th event.  In every run whose events all meet `Durable`, every request answered `Ok`
within the time to live, and every whole file within the period, is remembered after each restart and not asked for again
within that time. -/
theorem restart_forgets_nothing {σ : Type} (crc : Bytes → UInt32) (call : σ → SenderRequest → Reply × σ) (ttl : Nat)
    (period : UInt64) (hperiod : period.toNat < 2 ^ 63) (tableFile : Option (List (Planned × Nat)))
    (stateFile : Option ReconcileState) (evs : List (CleanerEvent σ)) (now : Nat → Nat) (utc : Nat → Int)
    (hcfg : ∀ e ∈ evs, e.HasPeriod period)
    (hclock : ∀ (j : Nat) (e : CleanerEvent σ), evs[j]? = some e → e.Between crc (now j) (utc j) (now (j + 1)) (utc (j + 1)))
    (hdur : ∀ pre e post, evs = pre ++ e :: post →
      e.Durable crc call period (CleanerEvent.run crc call (.start tableFile stateFile ttl (now 0)) pre)) :
    ∀ pre e post, evs = pre ++ e :: post →
      e.Safe crc call period (CleanerEvent.run crc call (.start tableFile stateFile ttl (now 0)) pre) := by
  have hat : ∀ pre e post, evs = pre ++ e :: post →
      e.HasPeriod period ∧ e.Between crc (now pre.length) (utc pre.length) (now (pre.length + 1)) (utc (pre.length + 1)) := by
    intro pre e post heq
    refine ⟨hcfg e (by rw [heq]; simp), hclock pre.length e ?_⟩
    rw [heq, List.getElem?_append_right (Nat.le_refl _), Nat.sub_self, List.getElem?_cons_zero]
  have hinv : ∀ pre post, evs = pre ++ post →
      (CleanerEvent.run crc call (.start tableFile stateFile ttl (now 0)) pre).Inv period (now pre.length) (utc pre.length) := by
    intro pre
    induction pre using List.reverseRecOn with
    | nil => exact fun _ _ => CleanerWorld.inv_start tableFile stateFile ttl (now 0) period (utc 0)
    | append_singleton pre e ih =>
      intro post heq
      have hsplit : evs = pre ++ e :: post := by rw [heq, List.append_assoc, List.singleton_append]
      obtain ⟨hp, hb⟩ := hat pre e post hsplit
      rw [CleanerEvent.run_concat, List.length_append, List.length_singleton]
      exact (CleanerEvent.step hperiod (ih _ hsplit) hp hb (hdur pre e post hsplit)).2
  intro pre e post heq
  obtain ⟨hp, hb⟩ := hat pre e post heq
  exact (CleanerEvent.step hperiod (hinv pre _ heq) hp hb (hdur pre e post heq)).1

namespace Forty

/-- The requests of a pass over the two missing chunks with a table that does not know them. -/
theorem issued_named {m : TableMemory} (t : Nat) (hnew : m.dedup.entries = []) :
    m.issued crc32 takesAll (passOn named t) = [⟨⟨1, ⟨0, 2⟩, .retransmit⟩, t, t, t, .ok⟩] := by
  unfold TableMemory.issued
  rw [planned_passOn, plan_named]
  obtain ⟨⟨entries, ttl⟩, file, before, since⟩ := m
  cases hnew
  rfl

/-- The cleaner at its first start. -/
def firstStart : CleanerWorld := .start none none (300 * SECOND) 0

/-- It is stopped when the one request of its pass is answered, and started again a second later. -/
def stoppedInPass : CleanerEvent Unit := .stopInPass (passOn named 0) 1 ⟨SECOND, 1⟩

theorem run_stoppedInPass : CleanerEvent.run crc32 takesAll firstStart [stoppedInPass] =
    ⟨⟨⟨[], 300 * SECOND⟩, none, [⟨⟨1, ⟨0, 2⟩, .retransmit⟩, 0, SECOND, none⟩], []⟩, ⟨⟨none, [], none⟩, none, []⟩⟩ := by
  have hissued : firstStart.table.issued crc32 takesAll (passOn named 0) = [⟨⟨1, ⟨0, 2⟩, .retransmit⟩, 0, 0, 0, .ok⟩] :=
    issued_named 0 rfl
  rw [CleanerEvent.run, List.foldl_cons, List.foldl_nil, stoppedInPass, CleanerEvent.apply, TableMemory.cut, hissued]
  rfl

end Forty

namespace Forty

/-- A pass that is saved at its end. -/
def savedPass (t : Nat) : CleanerEvent Unit := .pass (passOn named t) (some t)

theorem run_savedPass : CleanerEvent.run crc32 takesAll firstStart [savedPass 0] =
    ⟨⟨⟨[(⟨1, ⟨0, 2⟩, .retransmit⟩, 300 * SECOND)], 300 * SECOND⟩, some [(⟨1, ⟨0, 2⟩, .retransmit⟩, 300)], [],
      [⟨⟨1, ⟨0, 2⟩, .retransmit⟩, 0, 300 * SECOND, some 300⟩]⟩, ⟨⟨none, [], none⟩, none, []⟩⟩ := by
  have hissued : firstStart.table.issued crc32 takesAll (passOn named 0) = [⟨⟨1, ⟨0, 2⟩, .retransmit⟩, 0, 0, 0, .ok⟩] :=
    issued_named 0 rfl
  rw [CleanerEvent.run, List.foldl_cons, List.foldl_nil, savedPass, CleanerEvent.apply, TableMemory.asked_eq, hissued,
    Cleaner.PassInput.endsAt, planned_passOn, plan_named]
  rfl

end Forty

/-- The pass is saved, the process stopped, and started again two seconds later: the next pass asks for nothing again. -/
theorem restart_forgets_nothing_saved :
    (Forty.savedPass (2 * SECOND)).Safe crc32 Forty.takesAll (6 * 60 * 60)
      (CleanerEvent.run crc32 Forty.takesAll Forty.firstStart [Forty.savedPass 0, .stop ⟨2 * SECOND, 2⟩]) := by
  refine restart_forgets_nothing crc32 Forty.takesAll (300 * SECOND) (6 * 60 * 60) (by decide) none none
    [Forty.savedPass 0, .stop ⟨2 * SECOND, 2⟩, Forty.savedPass (2 * SECOND)] (fun j => if j ≤ 1 then 0 else 2 * SECOND)
    (fun j => if j ≤ 1 then 0 else 2) ?_ ?_ ?_ [Forty.savedPass 0, .stop ⟨2 * SECOND, 2⟩] (Forty.savedPass (2 * SECOND)) [] rfl
  · intro e he
    simp only [List.mem_cons, List.not_mem_nil, or_false] at he
    rcases he with rfl | rfl | rfl
    · trivial
    · trivial
    · trivial
  · intro j e he
    match j, he with
    | 0, he => cases he; exact ⟨⟨Nat.le_refl _, Nat.le_refl _, Nat.le_refl _⟩, by decide⟩
    | 1, he => cases he; exact ⟨by decide, by decide⟩
    | 2, he => cases he; exact ⟨⟨Nat.le_refl _, Nat.le_refl _, Nat.le_refl _⟩, by decide⟩
    | _ + 3, he => cases he
  · intro pre e post heq
    match pre, heq with
    | [], heq => cases heq; trivial
    | [_], heq =>
      cases heq
      have hrun := Forty.run_savedPass
      unfold Forty.firstStart at hrun
      show TableMemory.Kept (CleanerEvent.run _ _ _ _).table _ ∧ WholeMemory.Kept _ (CleanerEvent.run _ _ _ _).whole _
      rw [if_pos (by decide), hrun]
      refine ⟨fun r hr _ => ?_, fun r hr => by cases hr⟩
      rw [List.mem_singleton.1 hr]
      exact ⟨300, rfl, by decide⟩
    | [_, _], heq => cases heq; trivial
    | _ :: _ :: _ :: pre, heq => cases pre <;> cases heq

/-- **A stop in the middle of a pass**: the request is answered `Ok`, the process stopped and started again a second later.
It is not remembered, and the next pass makes it again. -/
theorem restart_forgets_pass :
    Forty.stoppedInPass.Between crc32 0 0 SECOND 1 ∧
    (CleanerEvent.pass (Forty.passOn Forty.named SECOND) (some SECOND)).Between crc32 SECOND 1 SECOND 1 ∧
    ¬ Forty.stoppedInPass.Safe crc32 Forty.takesAll (6 * 60 * 60) Forty.firstStart ∧
    ¬ (CleanerEvent.pass (Forty.passOn Forty.named SECOND) (some SECOND)).Safe crc32 Forty.takesAll (6 * 60 * 60)
      (CleanerEvent.run crc32 Forty.takesAll Forty.firstStart [Forty.stoppedInPass]) := by
  refine ⟨⟨⟨Nat.zero_le _, Nat.le_refl _⟩, by decide⟩, ⟨⟨Nat.le_refl _, Nat.le_refl _, Nat.le_refl _⟩, by decide⟩, ?_, ?_⟩
  · intro hsafe
    have hrem := hsafe.2.1
    have hrun : Forty.stoppedInPass.apply crc32 Forty.takesAll Forty.firstStart = _ := Forty.run_stoppedInPass
    rw [hrun] at hrem
    obtain ⟨exp, hexp, -⟩ := hrem _ List.mem_cons_self (by decide)
    cases hexp
  · intro hsafe
    rw [Forty.run_stoppedInPass] at hsafe
    have hagain := hsafe ⟨⟨1, ⟨0, 2⟩, .retransmit⟩, SECOND, SECOND, SECOND, .ok⟩
      (by rw [Forty.issued_named SECOND rfl]; exact List.mem_singleton.2 rfl) _ List.mem_cons_self rfl
    exact absurd hagain (by decide)

end Parachuter
