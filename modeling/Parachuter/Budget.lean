import Parachuter.Issued
/-!
# Budget — how many requests a pass sends

The loop counts the requests answered `Ok` and stops when there are as many as the link's `max_in_flight`.  Which items get
as far as a request is settled by the sender's status and the table alone (`eligible`); of these the pass asks for the first
ones, up to the answer that fills the budget (`asked_upTo`).
-/
namespace Parachuter

/-! ## Up to so many hits -/

/-- A list up to its `n`-th element with `p`. -/
def upTo {α : Type} (p : α → Bool) : Nat → List α → List α
  | 0, _          => []
  | _ + 1, []     => []
  | n + 1, a :: l => a :: upTo p (if p a then n else n + 1) l

section

variable {α : Type} {p : α → Bool}

theorem upTo_nil (n : Nat) : upTo p n [] = [] := by
  cases n with
  | zero => rfl
  | succ n => rfl

theorem length_upTo_le : ∀ (n : Nat) (l : List α), (upTo p n l).length ≤ l.length
  | 0, _          => by
    rw [upTo]
    exact Nat.zero_le _
  | _ + 1, []     => Nat.le_refl _
  | n + 1, a :: l => by
    rw [upTo, List.length_cons, List.length_cons]
    exact Nat.succ_le_succ (length_upTo_le _ l)

theorem upTo_of_length_lt : ∀ {n : Nat} {l : List α}, (upTo p n l).length < n → upTo p n l = l
  | 0, _, h          => absurd h (Nat.not_lt_zero _)
  | _ + 1, [], _     => rfl
  | n + 1, a :: l, h => by
    rw [upTo] at h ⊢
    have hlt := Nat.lt_of_succ_lt_succ h
    congr 1
    split at hlt
    · rename_i ha
      rw [if_pos ha]
      exact upTo_of_length_lt hlt
    · rename_i ha
      rw [if_neg ha]
      exact upTo_of_length_lt (Nat.lt_succ_of_lt hlt)

/-- **At most `n` exactly when** there are no more, or the first `n` all have `p`. -/
theorem length_upTo_le_iff : ∀ (n : Nat) (l : List α),
    (upTo p n l).length ≤ n ↔ l.length ≤ n ∨ ∀ a ∈ l.take n, p a = true
  | 0, l          => by
    rw [upTo, List.take_zero]
    exact ⟨fun _ => .inr (fun a ha => by cases ha), fun _ => Nat.le_refl _⟩
  | n + 1, []     => ⟨fun _ => .inl (Nat.zero_le _), fun _ => Nat.zero_le _⟩
  | n + 1, a :: l => by
    rw [upTo, List.length_cons, List.length_cons, Nat.succ_le_succ_iff, Nat.succ_le_succ_iff, List.take_succ_cons,
      List.forall_mem_cons]
    by_cases ha : p a = true
    · rw [if_pos ha, length_upTo_le_iff n l]
      exact or_congr_right (and_iff_right ha).symm
    · -- this one does not count, so the rest is short only if there is no more
      rw [if_neg ha]
      constructor
      · intro hle
        have hall := upTo_of_length_lt (Nat.lt_succ_of_le hle)
        rw [hall] at hle
        exact .inl hle
      · rintro (hle | ⟨hp, -⟩)
        · exact Nat.le_trans (length_upTo_le _ l) hle
        · exact absurd hp ha

end

namespace Cleaner

/-! ## The requests of a pass -/

/-- The planned items that neither the status nor the table turns away, the budget left aside. -/
def eligible (status : Option (List SenderQueueSnapshot)) (clock : Nat → Nat) :
    Nat → List Planned → DedupTable → List Planned
  | _, [], _                => []
  | k, p :: planned, dedup =>
    if isAlreadyPending status p then eligible status clock (k + 1) planned dedup
    else
      let (fresh, dedup) := dedup.tryInsert p (clock k)
      if fresh = false then eligible status clock (k + 1) planned dedup
      else p :: eligible status clock (k + 1) planned dedup

/-- Requests with the answers they get, one after another. -/
def answered {σ : Type} (call : σ → SenderRequest → Reply × σ) : σ → List SenderRequest → List (SenderRequest × Reply)
  | _, []          => []
  | env, r :: rs => (r, (call env r).1) :: answered call (call env r).2 rs

theorem length_answered {σ : Type} (call : σ → SenderRequest → Reply × σ) : ∀ (env : σ) (rs : List SenderRequest),
    (answered call env rs).length = rs.length
  | _, []        => rfl
  | env, r :: rs => congrArg (· + 1) (length_answered call (call env r).2 rs)

/-- **The loop asks for the eligible items up to the answer that fills the budget.** -/
theorem asked_upTo {σ : Type} (call : σ → SenderRequest → Reply × σ) (status : Option (List SenderQueueSnapshot))
    (budget : LinkBudget) (clock : Nat → Nat) : ∀ (planned : List Planned) (k : Nat) (sent : UInt32) (dedup : DedupTable)
    (env : σ), (requestLoop call status budget clock k planned sent dedup env).asked =
      upTo (fun x => decide (x.2 = .ok)) (budget.maxInFlight.toNat - sent.toNat)
        (answered call env ((eligible status clock k planned dedup).map Planned.request))
  | [], _, _, _, _                     => (upTo_nil _).symm
  | p :: planned, k, sent, dedup, env => by
    have hmax := budget.maxInFlight.toNat_lt
    unfold requestLoop
    by_cases hfull : budget.maxInFlight ≤ sent
    · rw [if_pos hfull, Nat.sub_eq_zero_of_le (UInt32.le_iff_toNat_le.1 hfull), upTo]
    · have hroom : sent.toNat < budget.maxInFlight.toNat := UInt32.lt_iff_toNat_lt.1 (UInt32.not_le.1 hfull)
      rw [if_neg hfull, eligible]
      split
      · exact asked_upTo call status budget clock planned (k + 1) sent dedup env
      · dsimp only
        split
        · exact asked_upTo call status budget clock planned (k + 1) sent _ env
        · obtain ⟨n, hn⟩ := Nat.exists_eq_add_one_of_ne_zero (Nat.sub_ne_zero_of_lt hroom)
          have hleft : budget.maxInFlight.toNat - (if (call env p.request).1 = .ok then sent + 1 else sent).toNat =
              if decide ((call env p.request).1 = .ok) then n else n + 1 := by
            by_cases hok : (call env p.request).1 = .ok
            · have hone : (sent + 1).toNat = sent.toNat + 1 := by
                rw [UInt32.toNat_add, UInt32.toNat_one, Nat.mod_eq_of_lt (by omega)]
              rw [if_pos hok, if_pos (decide_eq_true hok), hone]
              omega
            · rw [if_neg hok, if_neg (by simpa using hok)]
              exact hn
          rw [List.map_cons, answered, hn, upTo, ← hleft, ← asked_upTo call status budget clock planned]

end Cleaner

/-- **When a pass keeps to the link's budget**: exactly if no more items than `max_in_flight` are neither pending nor in the
table, or the first so many requests are all answered `Ok`. -/
theorem pass_within_budget_iff {σ : Type} (cfg : LiveConfig) (call : σ → SenderRequest → Reply × σ)
    (status : Option (List SenderQueueSnapshot)) (planned : List Planned) (clock : Nat → Nat) (dedup : DedupTable)
    (env : σ) : ∃ pass, Cleaner.runPass cfg call status planned clock dedup env = .ok pass ∧
      (pass.asked.length ≤ cfg.budget.maxInFlight.toNat ↔
        (Cleaner.eligible status clock 0 planned dedup).length ≤ cfg.budget.maxInFlight.toNat ∨
        ∀ x ∈ (Cleaner.answered call env ((Cleaner.eligible status clock 0 planned dedup).map Planned.request)).take
          cfg.budget.maxInFlight.toNat, x.2 = .ok) := by
  unfold Cleaner.runPass
  rw [cfg.lookup_budget]
  refine ⟨_, rfl, ?_⟩
  dsimp only
  rw [Cleaner.asked_upTo, UInt32.toNat_zero, Nat.sub_zero, length_upTo_le_iff, Cleaner.length_answered, List.length_map]
  simp only [decide_eq_true_eq]

namespace Nine

/-- One more gap than the default link's budget allows requests. -/
def planned : List Planned := (List.range 9).map (fun k => ⟨Int64.ofNat k, ⟨0, 1⟩, .retransmit⟩)

/-- A sender that does what it is asked for, and whose answer is too late. -/
def timesOut (done : List SenderRequest) (r : SenderRequest) : Reply × List SenderRequest := (.failed, done ++ [r])

end Nine

/-- **Nine requests on a budget of eight**: the sender carries out each, and its answers all come too late to count. -/
theorem pass_over_budget : ∃ pass, Cleaner.runPass .default Nine.timesOut none Nine.planned (fun _ => 0)
    (.new (300 * SECOND)) [] = .ok pass ∧ LiveConfig.default.budget.maxInFlight.toNat < pass.asked.length ∧
      pass.env = Nine.planned.map Planned.request :=
  ⟨_, rfl, by decide, by decide⟩

end Parachuter
