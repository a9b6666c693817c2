import Parachuter.Cleaner
/-!
# Issued — the requests of a pass and the moments they are made

`issues` is the request loop once more, keeping for every request the planned item behind it and the readings of the
clock around it (`asked_eq`).  A pass over a plan is a pass over its first items followed by one over the rest
(`requestLoop_append`, `issues_append`), so what holds of every request is proved one turn at a time, from the front of
the plan on (`turn_cases`).
-/
namespace Parachuter

/-- The chunks of a file that a request asks for; a negative start asks for the whole file. -/
def SenderRequest.Covers (id : FileId) (c : Nat) : SenderRequest → Prop
  | .enqueue fileId start count _ =>
    fileId = id ∧ (start < 0 ∨ start.toUInt32.toNat ≤ c ∧ c < start.toUInt32.toNat + count.toNat)
  | .resendName _                 => False

/-! ## The table -/

namespace DedupTable

/-- What is found under a key stays where only other entries are thrown out. -/
theorem lookup_filter {α β : Type} [DecidableEq α] {key : α} {x : β} {keep : α × β → Bool} (hk : keep (key, x) = true) :
    ∀ {l : List (α × β)}, l.lookup key = some x → (l.filter keep).lookup key = some x
  | [], h           => by cases h
  | (a, b) :: l, h => by
    rw [List.lookup_cons] at h
    by_cases ha : key = a
    · subst ha
      simp only [beq_self_eq_true, Option.some.injEq] at h
      subst h
      rw [List.filter_cons_of_pos hk, List.lookup_cons_self]
    · have hne : (key == a) = false := beq_false_of_ne ha
      rw [hne] at h
      rw [List.filter_cons]
      split
      · rw [List.lookup_cons, hne]
        exact lookup_filter hk h
      · exact lookup_filter hk h

variable {t : DedupTable} {p : Planned} {now : Nat}

theorem tryInsert_held {exp : Nat} (h : t.entries.lookup p = some exp) (hnow : now < exp) :
    t.tryInsert p now = (false, t) := by
  unfold tryInsert
  rw [h, if_pos (by simpa using hnow)]

theorem tryInsert_refused (h : (t.tryInsert p now).1 = false) : (t.tryInsert p now).2 = t := by
  unfold tryInsert at h ⊢
  split
  · rfl
  · rename_i hn
    rw [if_neg hn] at h
    cases h

theorem tryInsert_fresh (h : (t.tryInsert p now).1 = true) :
    (t.tryInsert p now).2 = { t with entries := (p, now + t.ttl) :: t.entries.filter (fun e => e.1 ≠ p) } := by
  unfold tryInsert at h ⊢
  split
  · rename_i hc
    rw [if_pos hc] at h
    cases h
  · rfl

theorem mem_of_refused (h : (t.tryInsert p now).1 = false) : p ∈ t.entries.map Prod.fst := by
  unfold tryInsert at h
  split at h
  · rename_i hany
    obtain ⟨exp, hexp⟩ : ∃ exp, t.entries.lookup p = some exp := by
      rw [← Option.isSome_iff_exists]
      by_contra hnone
      rw [Option.not_isSome_iff_eq_none.1 hnone] at hany
      cases hany
    obtain ⟨l₁, l₂, heq, -⟩ := List.lookup_eq_some_iff.1 hexp
    rw [heq]
    simp
  · cases h

/-- Every recorded key, until the moment recorded with it, is in the table: `e.2` is not beyond what a request made now
would be kept for. -/
structure Remembers (t : DedupTable) (now : Nat) (recs : List (Planned × Nat)) : Prop where
  bound : ∀ e ∈ recs, e.2 ≤ now + t.ttl
  held  : ∀ e ∈ recs, now < e.2 → ∃ exp, t.entries.lookup e.1 = some exp ∧ e.2 ≤ exp

namespace Remembers

variable {recs : List (Planned × Nat)} (h : t.Remembers now recs)

include h

theorem later {now' : Nat} (hle : now ≤ now') : t.Remembers now' recs := by
  refine ⟨fun e he => ?_, fun e he hlt => h.held e he (Nat.lt_of_le_of_lt hle hlt)⟩
  have := h.bound e he
  omega

theorem refuses {exp : Nat} (he : (p, exp) ∈ recs) (hnow : now < exp) : (t.tryInsert p now).1 = false := by
  obtain ⟨exp', hexp', hle⟩ := h.held _ he hnow
  rw [tryInsert_held hexp' (Nat.lt_of_lt_of_le hnow hle)]

theorem insert (hfresh : (t.tryInsert p now).1 = true) :
    (t.tryInsert p now).2.Remembers now (recs ++ [(p, now + t.ttl)]) := by
  rw [tryInsert_fresh hfresh]
  refine ⟨fun e he => ?_, fun e he hlt => ?_⟩
  · rcases List.mem_append.1 he with he | he
    · exact h.bound e he
    · rw [List.mem_singleton.1 he]
  · by_cases hkey : e.1 = p
    · refine ⟨now + t.ttl, by rw [hkey]; exact List.lookup_cons_self, ?_⟩
      rcases List.mem_append.1 he with he | he
      · exact h.bound e he
      · rw [List.mem_singleton.1 he]
    · have hold : e ∈ recs := by
        rcases List.mem_append.1 he with he | he
        · exact he
        · rw [List.mem_singleton.1 he] at hkey
          exact absurd rfl hkey
      obtain ⟨exp, hexp, hle⟩ := h.held e hold hlt
      refine ⟨exp, ?_, hle⟩
      have hne : (e.1 == p) = false := beq_false_of_ne hkey
      dsimp only
      rw [List.lookup_cons, hne]
      exact lookup_filter (by simpa using hkey) hexp

theorem gc : (t.gc now).Remembers now recs := by
  refine ⟨h.bound, fun e he hlt => ?_⟩
  obtain ⟨exp, hexp, hle⟩ := h.held e he hlt
  exact ⟨exp, lookup_filter (by simpa using Nat.lt_of_lt_of_le hlt hle) hexp, hle⟩

end Remembers

@[simp] theorem ttl_tryInsert (t : DedupTable) (p : Planned) (now : Nat) : (t.tryInsert p now).2.ttl = t.ttl := by
  unfold tryInsert
  split <;> rfl

end DedupTable

namespace Cleaner

/-- The clock at the `k`-th planned item: when the table is asked, when the request goes out, and when its answer is
there.  The wait between two requests and the call itself take their time. -/
structure Readings where
  lookedUp : Nat → Nat
  sent     : Nat → Nat
  answered : Nat → Nat
  order    : ∀ k, lookedUp k ≤ sent k ∧ sent k ≤ answered k ∧ answered k ≤ lookedUp (k + 1)

theorem Readings.mono (rd : Readings) {j k : Nat} (h : j ≤ k) : rd.lookedUp j ≤ rd.lookedUp k := by
  induction h with
  | refl => exact Nat.le_refl _
  | step _ ih =>
    rename_i k _
    have hk := rd.order k
    exact Nat.le_trans ih (Nat.le_trans hk.1 (Nat.le_trans hk.2.1 hk.2.2))

/-- One request of a pass. -/
structure Issue where
  planned    : Planned
  lookedUp   : Nat
  sentAt     : Nat
  answeredAt : Nat
  reply      : Reply
  deriving DecidableEq, Repr

/-- The number of requests answered `Ok`. -/
def okCount (is : List Issue) : Nat := is.countP (fun i => i.reply = .ok)

section

variable {σ : Type} (call : σ → SenderRequest → Reply × σ) (status : Option (List SenderQueueSnapshot))
  (budget : LinkBudget) (rd : Readings)

/-- The requests of the loop, in order. -/
def issues : Nat → List Planned → UInt32 → DedupTable → σ → List Issue
  | _, [], _, _, _                     => []
  | k, p :: planned, sent, dedup, env =>
    if budget.maxInFlight ≤ sent then []
    else if isAlreadyPending status p then issues (k + 1) planned sent dedup env
    else
      let (fresh, dedup) := dedup.tryInsert p (rd.lookedUp k)
      if fresh = false then issues (k + 1) planned sent dedup env
      else
        let (reply, env) := call env p.request
        ⟨p, rd.lookedUp k, rd.sent k, rd.answered k, reply⟩ ::
          issues (k + 1) planned (if reply = .ok then sent + 1 else sent) dedup env

/-- `sent`, as the loop counts it. -/
def sentAfter (sent : UInt32) (is : List Issue) : UInt32 :=
  is.foldl (fun s i => if i.reply = .ok then s + 1 else s) sent

end

section

variable {σ : Type} {call : σ → SenderRequest → Reply × σ} {status : Option (List SenderQueueSnapshot)}
  {budget : LinkBudget} {rd : Readings}

theorem loop_full {sent : UInt32} (h : budget.maxInFlight ≤ sent) (k : Nat) (planned : List Planned) (dedup : DedupTable)
    (env : σ) : requestLoop call status budget rd.lookedUp k planned sent dedup env = ⟨[], dedup, env⟩ ∧
      issues call status budget rd k planned sent dedup env = [] := by
  cases planned with
  | nil => exact ⟨rfl, rfl⟩
  | cons p planned =>
    unfold requestLoop issues
    rw [if_pos h, if_pos h]
    exact ⟨rfl, rfl⟩

/-- A planned item that is pending or in the table is passed over. -/
theorem loop_skip {sent : UInt32} (hroom : ¬ budget.maxInFlight ≤ sent) {k : Nat} {p : Planned} {dedup : DedupTable}
    (h : isAlreadyPending status p = true ∨ (dedup.tryInsert p (rd.lookedUp k)).1 = false) (planned : List Planned)
    (env : σ) :
    requestLoop call status budget rd.lookedUp k (p :: planned) sent dedup env =
      requestLoop call status budget rd.lookedUp (k + 1) planned sent dedup env ∧
    issues call status budget rd k (p :: planned) sent dedup env =
      issues call status budget rd (k + 1) planned sent dedup env := by
  rw [requestLoop, issues, if_neg hroom, if_neg hroom]
  by_cases hpend : isAlreadyPending status p = true
  · rw [if_pos hpend, if_pos hpend]
    exact ⟨rfl, rfl⟩
  · have hold := h.resolve_left hpend
    rw [if_neg hpend, if_neg hpend]
    dsimp only
    rw [if_pos hold, if_pos hold, DedupTable.tryInsert_refused hold]
    exact ⟨rfl, rfl⟩

theorem loop_issue {sent : UInt32} (hroom : ¬ budget.maxInFlight ≤ sent) {k : Nat} {p : Planned} {dedup : DedupTable}
    (hpend : isAlreadyPending status p = false) (hfresh : (dedup.tryInsert p (rd.lookedUp k)).1 = true)
    (planned : List Planned) (env : σ) :
    let i : Issue := ⟨p, rd.lookedUp k, rd.sent k, rd.answered k, (call env p.request).1⟩
    let rest := requestLoop call status budget rd.lookedUp (k + 1) planned (sentAfter sent [i])
      (dedup.tryInsert p (rd.lookedUp k)).2 (call env p.request).2
    requestLoop call status budget rd.lookedUp k (p :: planned) sent dedup env =
      ⟨(p.request, i.reply) :: rest.asked, rest.dedup, rest.env⟩ ∧
    issues call status budget rd k (p :: planned) sent dedup env =
      i :: issues call status budget rd (k + 1) planned (sentAfter sent [i]) (dedup.tryInsert p (rd.lookedUp k)).2
        (call env p.request).2 := by
  intro i rest
  rw [requestLoop, issues, if_neg hroom, if_neg hroom, hpend]
  simp only [Bool.false_eq_true, if_false]
  rw [hfresh]
  simp only [Bool.true_eq_false, if_false]
  exact ⟨rfl, rfl⟩

/-- **The three ways of a turn**: the budget is reached, the item is passed over, or it is asked for. -/
theorem turn (status : Option (List SenderQueueSnapshot)) (budget : LinkBudget) (rd : Readings) (sent : UInt32) (k : Nat)
    (p : Planned) (dedup : DedupTable) : budget.maxInFlight ≤ sent ∨ ¬ budget.maxInFlight ≤ sent ∧
      ((isAlreadyPending status p = true ∨ (dedup.tryInsert p (rd.lookedUp k)).1 = false) ∨
        isAlreadyPending status p = false ∧ (dedup.tryInsert p (rd.lookedUp k)).1 = true) := by
  by_cases hfull : budget.maxInFlight ≤ sent
  · exact .inl hfull
  · refine .inr ⟨hfull, ?_⟩
    cases isAlreadyPending status p <;> cases (dedup.tryInsert p (rd.lookedUp k)).1 <;> simp

variable (call status budget rd)

theorem asked_eq : ∀ (planned : List Planned) (k : Nat) (sent : UInt32) (dedup : DedupTable) (env : σ),
    (requestLoop call status budget rd.lookedUp k planned sent dedup env).asked =
      (issues call status budget rd k planned sent dedup env).map (fun i => (i.planned.request, i.reply))
  | [], _, _, _, _                     => rfl
  | p :: planned, k, sent, dedup, env => by
    rcases turn status budget rd sent k p dedup with hfull | ⟨hroom, hskip | ⟨hpend, hfresh⟩⟩
    · obtain ⟨hloop, hissues⟩ := @loop_full σ call status budget rd sent hfull k (p :: planned) dedup env
      rw [hloop, hissues]
      rfl
    · obtain ⟨hloop, hissues⟩ := @loop_skip σ call status budget rd sent hroom k p dedup hskip planned env
      rw [hloop, hissues]
      exact asked_eq planned (k + 1) sent dedup env
    · obtain ⟨hloop, hissues⟩ := @loop_issue σ call status budget rd sent hroom k p dedup hpend hfresh planned env
      rw [hloop, hissues, List.map_cons, ← asked_eq planned]

/-- **A pass goes through its plan from the front**: the rest is done on what the first part leaves. -/
theorem loop_append (post : List Planned) : ∀ (pre : List Planned) (k : Nat) (sent : UInt32) (dedup : DedupTable) (env : σ),
    let a := requestLoop call status budget rd.lookedUp k pre sent dedup env
    let is := issues call status budget rd k pre sent dedup env
    let b := requestLoop call status budget rd.lookedUp (k + pre.length) post (sentAfter sent is) a.dedup a.env
    requestLoop call status budget rd.lookedUp k (pre ++ post) sent dedup env = ⟨a.asked ++ b.asked, b.dedup, b.env⟩ ∧
    issues call status budget rd k (pre ++ post) sent dedup env =
      is ++ issues call status budget rd (k + pre.length) post (sentAfter sent is) a.dedup a.env
  | [], k, sent, dedup, env           => ⟨rfl, rfl⟩
  | p :: pre, k, sent, dedup, env => by
    have hlen : k + (p :: pre).length = k + 1 + pre.length := by rw [List.length_cons]; omega
    rw [List.cons_append, hlen]
    rcases turn status budget rd sent k p dedup with hfull | ⟨hroom, hskip | ⟨hpend, hfresh⟩⟩
    · obtain ⟨hloop, hissues⟩ := @loop_full σ call status budget rd sent hfull k (p :: pre) dedup env
      obtain ⟨hloop', hissues'⟩ := @loop_full σ call status budget rd sent hfull k (p :: (pre ++ post)) dedup env
      obtain ⟨hrest, hrest'⟩ := @loop_full σ call status budget rd sent hfull (k + 1 + pre.length) post dedup env
      rw [hloop, hissues, hloop', hissues']
      simp only [sentAfter, List.foldl_nil, hrest, hrest']
      exact ⟨rfl, rfl⟩
    · obtain ⟨hloop, hissues⟩ := @loop_skip σ call status budget rd sent hroom k p dedup hskip pre env
      obtain ⟨hloop', hissues'⟩ := @loop_skip σ call status budget rd sent hroom k p dedup hskip (pre ++ post) env
      rw [hloop, hissues, hloop', hissues']
      exact loop_append post pre (k + 1) sent dedup env
    · obtain ⟨hloop, hissues⟩ := @loop_issue σ call status budget rd sent hroom k p dedup hpend hfresh pre env
      obtain ⟨hloop', hissues'⟩ := @loop_issue σ call status budget rd sent hroom k p dedup hpend hfresh (pre ++ post) env
      obtain ⟨ih, ih'⟩ := loop_append post pre (k + 1) (sentAfter sent
        [⟨p, rd.lookedUp k, rd.sent k, rd.answered k, (call env p.request).1⟩]) (dedup.tryInsert p (rd.lookedUp k)).2
        (call env p.request).2
      rw [hloop, hissues, hloop', hissues', ih, ih']
      exact ⟨rfl, rfl⟩

/-- The loop counts the requests answered `Ok`, and stops at the budget. -/
theorem toNat_sentAfter : ∀ (planned : List Planned) (k : Nat) (sent : UInt32) (dedup : DedupTable) (env : σ),
    sent.toNat ≤ budget.maxInFlight.toNat →
    (sentAfter sent (issues call status budget rd k planned sent dedup env)).toNat =
      sent.toNat + okCount (issues call status budget rd k planned sent dedup env)
  | [], _, _, _, _, _                     => rfl
  | p :: planned, k, sent, dedup, env, hle => by
    rcases turn status budget rd sent k p dedup with hfull | ⟨hroom, hskip | ⟨hpend, hfresh⟩⟩
    · rw [(@loop_full σ call status budget rd sent hfull k (p :: planned) dedup env).2]
      rfl
    · rw [(@loop_skip σ call status budget rd sent hroom k p dedup hskip planned env).2]
      exact toNat_sentAfter planned (k + 1) sent dedup env hle
    · have hlt : sent.toNat < budget.maxInFlight.toNat := UInt32.lt_iff_toNat_lt.1 (UInt32.not_le.1 hroom)
      have hmax := budget.maxInFlight.toNat_lt
      rw [(@loop_issue σ call status budget rd sent hroom k p dedup hpend hfresh planned env).2]
      set i : Issue := ⟨p, rd.lookedUp k, rd.sent k, rd.answered k, (call env p.request).1⟩ with hi
      have hone : (sentAfter sent [i]).toNat = sent.toNat + okCount [i] := by
        by_cases hok : i.reply = .ok
        · have h1 : sentAfter sent [i] = sent + 1 := if_pos hok
          rw [h1, UInt32.toNat_add, UInt32.toNat_one, Nat.mod_eq_of_lt (by omega)]
          simp [okCount, hok]
        · have h1 : sentAfter sent [i] = sent := if_neg hok
          rw [h1]
          simp [okCount, hok]
      have hle1 : okCount [i] ≤ 1 := List.countP_le_length
      have ih := toNat_sentAfter planned (k + 1) (sentAfter sent [i]) (dedup.tryInsert p (rd.lookedUp k)).2
        (call env p.request).2 (by omega)
      have hcons : ∀ is : List Issue, okCount (i :: is) = okCount [i] + okCount is :=
        fun is => @List.countP_append _ _ [i] is
      show (sentAfter (sentAfter sent [i]) _).toNat = _
      rw [ih, hone, Nat.add_assoc]
      exact congrArg _ (hcons _).symm

end

/-! ## A pass, turn by turn -/

section

variable {σ : Type} (call : σ → SenderRequest → Reply × σ) (status : Option (List SenderQueueSnapshot))
  (budget : LinkBudget) (rd : Readings) (dedup : DedupTable) (env : σ)

/-- What the loop has done after the items `pre`. -/
def after (pre : List Planned) : Pass σ := requestLoop call status budget rd.lookedUp 0 pre 0 dedup env

/-- The requests it has made. -/
def issued (pre : List Planned) : List Issue := issues call status budget rd 0 pre 0 dedup env

/-- The turn at `p`, after the items `pre`, makes a request. -/
structure Asks (pre : List Planned) (p : Planned) : Prop where
  room       : okCount (issued call status budget rd dedup env pre) < budget.maxInFlight.toNat
  notPending : isAlreadyPending status p = false
  fresh      : ((after call status budget rd dedup env pre).dedup.tryInsert p (rd.lookedUp pre.length)).1 = true

/-- The request of that turn. -/
def issueAt (pre : List Planned) (p : Planned) : Issue where
  planned := p
  lookedUp := rd.lookedUp pre.length
  sentAt := rd.sent pre.length
  answeredAt := rd.answered pre.length
  reply := (call (after call status budget rd dedup env pre).env p.request).1

variable {call status budget rd dedup env}

theorem room_iff {pre : List Planned} : ¬ budget.maxInFlight ≤ sentAfter 0 (issued call status budget rd dedup env pre) ↔
    okCount (issued call status budget rd dedup env pre) < budget.maxInFlight.toNat := by
  have hcount := toNat_sentAfter call status budget rd pre 0 0 dedup env (Nat.zero_le _)
  rw [UInt32.toNat_zero, Nat.zero_add] at hcount
  rw [UInt32.not_le, UInt32.lt_iff_toNat_lt]
  unfold issued
  rw [hcount]

/-- **A turn that makes a request** enters it into the table. -/
theorem turn_asks {pre : List Planned} {p : Planned} (h : Asks call status budget rd dedup env pre p) :
    (after call status budget rd dedup env (pre ++ [p])).dedup =
      ((after call status budget rd dedup env pre).dedup.tryInsert p (rd.lookedUp pre.length)).2 ∧
    issued call status budget rd dedup env (pre ++ [p]) =
      issued call status budget rd dedup env pre ++ [issueAt call status budget rd dedup env pre p] := by
  obtain ⟨hloop, hissues⟩ := loop_append call status budget rd [p] pre 0 0 dedup env
  obtain ⟨hloop', hissues'⟩ := @loop_issue σ call status budget rd _ (room_iff.2 h.room) pre.length p _ h.notPending h.fresh []
    (after call status budget rd dedup env pre).env
  unfold issued at *
  unfold after at *
  rw [Nat.zero_add] at hloop hissues
  rw [hloop, hissues, hloop', hissues']
  exact ⟨rfl, rfl⟩

/-- **Any other turn** changes nothing. -/
theorem turn_passes {pre : List Planned} {p : Planned} (h : ¬ Asks call status budget rd dedup env pre p) :
    (after call status budget rd dedup env (pre ++ [p])).dedup = (after call status budget rd dedup env pre).dedup ∧
    issued call status budget rd dedup env (pre ++ [p]) = issued call status budget rd dedup env pre := by
  obtain ⟨hloop, hissues⟩ := loop_append call status budget rd [p] pre 0 0 dedup env
  unfold issued after
  rw [hloop, hissues]
  rw [Nat.zero_add]
  rcases turn status budget rd (sentAfter 0 (issues call status budget rd 0 pre 0 dedup env)) pre.length p
      (requestLoop call status budget rd.lookedUp 0 pre 0 dedup env).dedup with hfull | ⟨hroom, hskip | ⟨hpend, hfresh⟩⟩
  · obtain ⟨hloop', hissues'⟩ := @loop_full σ call status budget rd _ hfull pre.length [p]
      (requestLoop call status budget rd.lookedUp 0 pre 0 dedup env).dedup
      (requestLoop call status budget rd.lookedUp 0 pre 0 dedup env).env
    rw [hloop', hissues']
    exact ⟨rfl, List.append_nil _⟩
  · obtain ⟨hloop', hissues'⟩ := @loop_skip σ call status budget rd _ hroom pre.length p _ hskip []
      (requestLoop call status budget rd.lookedUp 0 pre 0 dedup env).env
    rw [hloop', hissues']
    exact ⟨rfl, List.append_nil _⟩
  · exact absurd ⟨room_iff.1 hroom, hpend, hfresh⟩ h

/-- **What every turn keeps holds after the pass.**  `I` is about the requests so far and the table, before the `k`-th
item. -/
theorem issued_induction {I : Nat → List Issue → DedupTable → Prop} {planned : List Planned} (h₀ : I 0 [] dedup)
    (hpass : ∀ k is t, I k is t → I (k + 1) is t)
    (hask : ∀ pre p post, planned = pre ++ p :: post → Asks call status budget rd dedup env pre p →
      I pre.length (issued call status budget rd dedup env pre) (after call status budget rd dedup env pre).dedup →
      I (pre.length + 1) (issued call status budget rd dedup env pre ++ [issueAt call status budget rd dedup env pre p])
        ((after call status budget rd dedup env pre).dedup.tryInsert p (rd.lookedUp pre.length)).2) :
    ∀ pre post, planned = pre ++ post →
      I pre.length (issued call status budget rd dedup env pre) (after call status budget rd dedup env pre).dedup := by
  intro pre
  induction pre using List.reverseRecOn with
  | nil => exact fun _ _ => h₀
  | append_singleton pre p ih =>
    intro post heq
    have hsplit : planned = pre ++ p :: post := by rw [heq, List.append_assoc, List.singleton_append]
    have hpre := ih (p :: post) hsplit
    rw [List.length_append, List.length_singleton]
    by_cases hasks : Asks call status budget rd dedup env pre p
    · obtain ⟨htable, hissued⟩ := turn_asks hasks
      rw [htable, hissued]
      exact hask pre p post hsplit hasks hpre
    · obtain ⟨htable, hissued⟩ := turn_passes hasks
      rw [htable, hissued]
      exact hpass _ _ _ hpre

theorem ttl_after (planned : List Planned) : (after call status budget rd dedup env planned).dedup.ttl = dedup.ttl :=
  @issued_induction σ call status budget rd dedup env (fun _ _ t => t.ttl = dedup.ttl) planned rfl (fun _ _ _ h => h)
    (fun pre p _ _ _ h => by rw [DedupTable.ttl_tryInsert, h]) planned [] (List.append_nil _).symm

/-- **A pass forgets nothing**, and remembers what it asks for. -/
theorem remembers_after {recs : List (Planned × Nat)} (h : dedup.Remembers (rd.lookedUp 0) recs) (planned : List Planned) :
    (after call status budget rd dedup env planned).dedup.Remembers (rd.lookedUp planned.length)
      (recs ++ (issued call status budget rd dedup env planned).map (fun i => (i.planned, i.lookedUp + dedup.ttl))) := by
  refine @issued_induction σ call status budget rd dedup env (fun k is t => t.ttl = dedup.ttl ∧
    t.Remembers (rd.lookedUp k) (recs ++ is.map (fun i => (i.planned, i.lookedUp + dedup.ttl)))) planned ⟨rfl, ?_⟩ ?_ ?_
    planned [] (List.append_nil _).symm |>.2
  · rw [List.map_nil, List.append_nil]
    exact h
  · exact fun k is t ht => ⟨ht.1, ht.2.later (rd.mono (Nat.le_succ k))⟩
  · rintro pre p post - hasks ⟨httl, hrem⟩
    refine ⟨by rw [DedupTable.ttl_tryInsert, httl], ?_⟩
    have hins := hrem.insert hasks.fresh
    rw [httl, List.append_assoc] at hins
    rw [List.map_append]
    exact hins.later (rd.mono (Nat.le_succ _))

theorem lookedUp_of_issued {planned : List Planned} {i : Issue}
    (hi : i ∈ issued call status budget rd dedup env planned) : ∃ k, i.lookedUp = rd.lookedUp k := by
  have hall := @issued_induction σ call status budget rd dedup env (fun _ is _ => ∀ i ∈ is, ∃ k, i.lookedUp = rd.lookedUp k)
    planned (fun _ hi => by cases hi) (fun _ _ _ h => h) ?_ planned [] (List.append_nil _).symm
  · exact hall i hi
  · intro pre p post _ _ hpre i hi
    rcases List.mem_append.1 hi with hi | hi
    · exact hpre i hi
    · rw [List.mem_singleton.1 hi]
      exact ⟨pre.length, rfl⟩

/-- **Nothing that is remembered is asked for** before its entry expires. -/
theorem expired_of_issued {recs : List (Planned × Nat)} (h : dedup.Remembers (rd.lookedUp 0) recs) {planned : List Planned}
    {i : Issue} (hi : i ∈ issued call status budget rd dedup env planned) {e : Planned × Nat} (he : e ∈ recs)
    (hkey : e.1 = i.planned) : e.2 ≤ i.lookedUp := by
  have hall := @issued_induction σ call status budget rd dedup env
    (fun _ is _ => ∀ i ∈ is, e.1 = i.planned → e.2 ≤ i.lookedUp) planned (fun _ hi => by cases hi) (fun _ _ _ h => h) ?_
    planned [] (List.append_nil _).symm
  · exact hall i hi hkey
  · intro pre p post _ hasks hpre i hi hkey
    rcases List.mem_append.1 hi with hi | hi
    · exact hpre i hi hkey
    · rw [List.mem_singleton.1 hi] at hkey ⊢
      by_contra hearly
      have hkey' : e.1 = p := hkey
      have hmem := List.mem_append_left ((issued call status budget rd dedup env pre).map
        (fun i => (i.planned, i.lookedUp + dedup.ttl))) he
      rw [show e = (p, e.2) from Prod.ext hkey' rfl] at hmem
      have hrefused := (remembers_after h pre).refuses hmem (Nat.lt_of_not_le hearly)
      rw [hasks.fresh] at hrefused
      cases hrefused

/-- **Only planned items that are not pending are asked for.** -/
theorem mem_issued {planned : List Planned} {i : Issue} (h : i ∈ issued call status budget rd dedup env planned) :
    i.planned ∈ planned ∧ isAlreadyPending status i.planned = false := by
  have hall := @issued_induction σ call status budget rd dedup env
    (fun _ is _ => ∀ i ∈ is, i.planned ∈ planned ∧ isAlreadyPending status i.planned = false) planned
    (fun _ hi => by cases hi) (fun _ _ _ h => h) ?_ planned [] (List.append_nil _).symm
  · exact hall i h
  · intro pre p post heq hasks hI i hi
    rcases List.mem_append.1 hi with hi | hi
    · exact hI i hi
    · rw [List.mem_singleton.1 hi]
      exact ⟨by rw [heq]; simp [issueAt], hasks.notPending⟩

theorem keys_after {planned : List Planned} {p : Planned}
    (h : p ∈ (after call status budget rd dedup env planned).dedup.entries.map Prod.fst) :
    p ∈ dedup.entries.map Prod.fst ∨ ∃ i ∈ issued call status budget rd dedup env planned, i.planned = p := by
  have hall := @issued_induction σ call status budget rd dedup env
    (fun _ is t => ∀ p ∈ t.entries.map Prod.fst, p ∈ dedup.entries.map Prod.fst ∨ ∃ i ∈ is, i.planned = p) planned
    (fun _ hp => .inl hp) (fun _ _ _ h => h) ?_ planned [] (List.append_nil _).symm
  · exact hall p h
  · intro pre p post heq hasks hI q hq
    rw [DedupTable.tryInsert_fresh hasks.fresh, List.map_cons] at hq
    rcases List.mem_cons.1 hq with rfl | hq
    · exact .inr ⟨_, List.mem_append_right _ (List.mem_singleton.2 rfl), rfl⟩
    · obtain ⟨e, he, rfl⟩ := List.mem_map.1 hq
      rcases hI _ (List.mem_map_of_mem (List.mem_filter.1 he).1) with hold | ⟨i, hi, heq⟩
      · exact .inl hold
      · exact .inr ⟨i, List.mem_append_left _ hi, heq⟩

/-- **Within the budget every planned item is asked for**, unless it is pending or was in the table before. -/
theorem exists_issued {planned : List Planned}
    (hbudget : okCount (issued call status budget rd dedup env planned) < budget.maxInFlight.toNat) {p : Planned}
    (hp : p ∈ planned) (hpend : isAlreadyPending status p = false) (hnew : p ∉ dedup.entries.map Prod.fst) :
    ∃ i ∈ issued call status budget rd dedup env planned, i.planned = p := by
  obtain ⟨pre, post, rfl⟩ := List.append_of_mem hp
  have hsplit : ∀ l r, issued call status budget rd dedup env (l ++ r) = issued call status budget rd dedup env l ++ _ :=
    fun l r => (loop_append call status budget rd r l 0 0 dedup env).2
  have hroom : okCount (issued call status budget rd dedup env pre) < budget.maxInFlight.toNat := by
    refine Nat.lt_of_le_of_lt ?_ hbudget
    rw [hsplit pre (p :: post)]
    unfold okCount
    rw [List.countP_append]
    exact Nat.le_add_right _ _
  have hmem : ∃ i ∈ issued call status budget rd dedup env (pre ++ [p]), i.planned = p := by
    by_cases hasks : Asks call status budget rd dedup env pre p
    · rw [(turn_asks hasks).2]
      exact ⟨_, List.mem_append_right _ (List.mem_singleton.2 rfl), rfl⟩
    · -- refused by the table, so an item of the plan before it
      have hrefused : ((after call status budget rd dedup env pre).dedup.tryInsert p (rd.lookedUp pre.length)).1 = false := by
        by_contra hfresh
        exact hasks ⟨hroom, hpend, Bool.eq_true_of_not_eq_false hfresh⟩
      rw [(turn_passes hasks).2]
      exact (keys_after (DedupTable.mem_of_refused hrefused)).resolve_left hnew
  obtain ⟨i, hi, heq⟩ := hmem
  refine ⟨i, ?_, heq⟩
  rw [← List.singleton_append, ← List.append_assoc, hsplit (pre ++ [p]) post]
  exact List.mem_append_left _ hi

end

end Cleaner

/-! ## The pass -/

/-- The budget of the link in use; a valid config has one. -/
def LiveConfig.budget (c : LiveConfig) : LinkBudget :=
  (c.current.cleaner.links.lookup c.current.cleaner.activeLink).getD ⟨0, 0⟩

theorem LiveConfig.lookup_budget (c : LiveConfig) :
    c.current.cleaner.links.lookup c.current.cleaner.activeLink = some c.budget := by
  obtain ⟨-, ⟨b, hb⟩, -⟩ := Config.validate_ok c.valid
  rw [LiveConfig.budget, hb, Option.getD_some]

/-- **A pass never fails**: it makes its requests and clears the table of what has expired. -/
theorem Cleaner.runPass_eq {σ : Type} (cfg : LiveConfig) (call : σ → SenderRequest → Reply × σ)
    (status : Option (List SenderQueueSnapshot)) (planned : List Planned) (rd : Readings) (dedup : DedupTable) (env : σ) :
    runPass cfg call status planned rd.lookedUp dedup env =
      .ok ⟨(issued call status cfg.budget rd dedup env planned).map (fun i => (i.planned.request, i.reply)),
        (after call status cfg.budget rd dedup env planned).dedup.gc (rd.lookedUp planned.length),
        (after call status cfg.budget rd dedup env planned).env⟩ := by
  unfold runPass
  rw [cfg.lookup_budget]
  dsimp only
  rw [asked_eq]
  rfl

end Parachuter
