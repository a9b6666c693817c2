import Mathlib.Algebra.Order.Field.Rat
import Mathlib.Tactic.Linarith
import Mathlib.Tactic.Positivity
import Parachuter.Proto
/-!
# The token bucket (`rate_limiter.rs`)

The limiter's arithmetic over exact rationals, with time in seconds.  Everything the clock does beyond what the code
asks of it is a sequence of delays `δ`: `δ 0` before the first refill, `δ (k + 1)` on top of the `k`-th sleep.  A refill
caps the bucket at one second's worth of traffic, so whether the loop of `acquire` ends is decided by the cap alone
(`acquire_returns`, `acquire_never`), and in two turns (`acquired_eq_some_iff`).
-/
namespace Parachuter

structure RateLimiter where
  bytesPerSec : ℚ
  burstBytes  : ℚ
  tokens      : ℚ
  last        : ℚ
  deriving DecidableEq

namespace RateLimiter

def rateOf (kbps : UInt64) : ℚ := kbps.toNat * 1000 / 8

def new (kbps : UInt64) (now : ℚ) : RateLimiter :=
  let bytesPerSec := rateOf kbps
  ⟨bytesPerSec, max bytesPerSec 1, max bytesPerSec 1, now⟩

def setKbps (rl : RateLimiter) (kbps : UInt64) : RateLimiter :=
  { rl with bytesPerSec := rateOf kbps, burstBytes := max (rateOf kbps) 1 }

def refill (rl : RateLimiter) (now : ℚ) : RateLimiter :=
  let elapsed := now - rl.last
  { rl with last := now, tokens := min (rl.tokens + elapsed * rl.bytesPerSec) rl.burstBytes }

/-- The loop of `acquire`, from the reading `now` of its `k`-th refill; `none` when it has not returned in `fuel` turns. -/
def acquireLoop (n : ℚ) (δ : Nat → ℚ) : Nat → Nat → ℚ → RateLimiter → Option RateLimiter
  | 0, _, _, _           => none
  | fuel + 1, k, now, rl =>
    let rl := rl.refill now
    if n ≤ rl.tokens then some { rl with tokens := rl.tokens - n }
    else
      let needed := n - rl.tokens
      let secs := needed / max rl.bytesPerSec 1
      acquireLoop n δ fuel (k + 1) (now + secs + δ (k + 1)) rl

def acquire (rl : RateLimiter) (n : Nat) (δ : Nat → ℚ) (fuel : Nat) : Option RateLimiter :=
  acquireLoop n δ fuel 0 (rl.last + δ 0) rl

/-- What `acquire` leaves if it returns: the second refill brings what the sleep waited for, so the loop returns in two
turns or never (`acquired_eq_some_iff`). -/
def acquired (rl : RateLimiter) (n : Nat) (δ : Nat → ℚ) : Option RateLimiter := rl.acquire n δ 2

/-- The call returns, whatever the clock does. -/
def Returns (rl : RateLimiter) (n : Nat) : Prop :=
  ∀ δ : Nat → ℚ, (∀ k, 0 ≤ δ k) → ∃ fuel rl', rl.acquire n δ fuel = some rl'

/-- The states a limiter can be in, between calls. -/
inductive Reachable : RateLimiter → Prop
  | new (kbps : UInt64) (now : ℚ) : Reachable (new kbps now)
  | setKbps {rl : RateLimiter} (kbps : UInt64) : Reachable rl → Reachable (rl.setKbps kbps)
  | acquire {rl rl' : RateLimiter} (n : Nat) (δ : Nat → ℚ) (fuel : Nat) : Reachable rl → (∀ k, 0 ≤ δ k) →
      rl.acquire n δ fuel = some rl' → Reachable rl'

/-! ## The bucket's invariant -/

/-- The cap is one second's worth, and the bucket is not in debt. -/
structure Inv (rl : RateLimiter) : Prop where
  rate   : 0 ≤ rl.bytesPerSec
  burst  : rl.burstBytes = max rl.bytesPerSec 1
  tokens : 0 ≤ rl.tokens

theorem rateOf_nonneg (kbps : UInt64) : 0 ≤ rateOf kbps := by
  unfold rateOf
  positivity

@[simp] theorem refill_bytesPerSec (rl : RateLimiter) (now : ℚ) : (rl.refill now).bytesPerSec = rl.bytesPerSec := rfl
@[simp] theorem refill_burstBytes (rl : RateLimiter) (now : ℚ) : (rl.refill now).burstBytes = rl.burstBytes := rfl
@[simp] theorem refill_last (rl : RateLimiter) (now : ℚ) : (rl.refill now).last = now := rfl

theorem refill_le_burst (rl : RateLimiter) (now : ℚ) : (rl.refill now).tokens ≤ rl.burstBytes := min_le_right _ _

theorem inv_refill {rl : RateLimiter} (h : Inv rl) {now : ℚ} (hnow : rl.last ≤ now) : Inv (rl.refill now) := by
  refine ⟨h.rate, h.burst, ?_⟩
  have hgain : 0 ≤ (now - rl.last) * rl.bytesPerSec := mul_nonneg (sub_nonneg.2 hnow) h.rate
  have htok := h.tokens
  have hburst : 0 ≤ rl.burstBytes := by rw [h.burst]; exact le_trans zero_le_one (le_max_right _ _)
  exact le_min (by linarith) hburst

theorem secs_nonneg {rl : RateLimiter} {n : ℚ} (h : ¬ n ≤ rl.tokens) : 0 ≤ (n - rl.tokens) / max rl.bytesPerSec 1 := by
  have hpos : (0 : ℚ) < max rl.bytesPerSec 1 := lt_of_lt_of_le zero_lt_one (le_max_right _ _)
  have hneed : 0 ≤ n - rl.tokens := by linarith [not_le.1 h]
  exact div_nonneg hneed hpos.le

theorem inv_acquireLoop {n : ℚ} {δ : Nat → ℚ} (hδ : ∀ k, 0 ≤ δ k) : ∀ (fuel k : Nat) (now : ℚ) {rl rl' : RateLimiter},
    Inv rl → rl.last ≤ now → acquireLoop n δ fuel k now rl = some rl' → Inv rl'
  | 0, _, _, _, _, _, _, hr           => by cases hr
  | fuel + 1, k, now, rl, rl', h, hnow, hr => by
    have h1 := inv_refill h hnow
    rw [acquireLoop] at hr
    split at hr
    · rename_i hn
      cases hr
      exact ⟨h1.rate, h1.burst, sub_nonneg.2 hn⟩
    · rename_i hn
      refine inv_acquireLoop hδ fuel (k + 1) _ h1 ?_ hr
      have := secs_nonneg hn
      have := hδ (k + 1)
      rw [refill_last]
      linarith

/-- **Every reachable bucket satisfies the invariant.** -/
theorem Reachable.inv {rl : RateLimiter} (h : Reachable rl) : Inv rl := by
  induction h with
  | new kbps now => exact ⟨rateOf_nonneg kbps, rfl, le_trans zero_le_one (le_max_right _ _)⟩
  | setKbps kbps _ ih => exact ⟨rateOf_nonneg kbps, rfl, ih.tokens⟩
  | acquire n δ fuel _ hδ hr ih =>
    refine inv_acquireLoop hδ fuel 0 _ ih ?_ hr
    linarith [hδ 0]

/-! ## When the loop ends -/

/-- A refill after the sleep brings what was missing, up to the cap. -/
theorem tokens_after_sleep {rl : RateLimiter} (hrate : 1 ≤ rl.bytesPerSec) {n d : ℚ} (hd : 0 ≤ d)
    (hn : n ≤ rl.burstBytes) :
    n ≤ (rl.refill (rl.last + (n - rl.tokens) / max rl.bytesPerSec 1 + d)).tokens := by
  have hmax : max rl.bytesPerSec 1 = rl.bytesPerSec := max_eq_left hrate
  have hpos : 0 < rl.bytesPerSec := by linarith
  refine le_min ?_ hn
  rw [hmax]
  have hgain : (rl.last + (n - rl.tokens) / rl.bytesPerSec + d - rl.last) * rl.bytesPerSec =
      (n - rl.tokens) + d * rl.bytesPerSec := by
    rw [add_sub_assoc, add_comm rl.last, add_assoc, add_sub_cancel, add_mul, div_mul_cancel₀ _ (ne_of_gt hpos)]
  have hextra : 0 ≤ d * rl.bytesPerSec := mul_nonneg hd hpos.le
  rw [hgain]
  linarith

/-- **Up to the cap the loop returns in two turns.** -/
theorem acquired_of_le {rl : RateLimiter} (hrate : 1 ≤ rl.bytesPerSec) {n : Nat} (hn : (n : ℚ) ≤ rl.burstBytes)
    {δ : Nat → ℚ} (hδ : ∀ k, 0 ≤ δ k) : ∃ rl', rl.acquired n δ = some rl' := by
  unfold acquired acquire
  by_cases h1 : (n : ℚ) ≤ (rl.refill (rl.last + δ 0)).tokens
  · exact ⟨_, by rw [acquireLoop, if_pos h1]⟩
  · have h2 := @tokens_after_sleep (rl.refill (rl.last + δ 0)) hrate n (δ 1) (hδ 1) hn
    rw [refill_last] at h2
    exact ⟨_, by rw [acquireLoop, if_neg h1, acquireLoop, if_pos h2]⟩

theorem acquire_returns {rl : RateLimiter} (hrate : 1 ≤ rl.bytesPerSec) {n : Nat} (hn : (n : ℚ) ≤ rl.burstBytes) :
    rl.Returns n :=
  fun _ hδ => ⟨2, acquired_of_le hrate hn hδ⟩

/-- **Above the cap the loop never returns.** -/
theorem acquireLoop_never {n : ℚ} (δ : Nat → ℚ) : ∀ (fuel k : Nat) (now : ℚ) (rl : RateLimiter), rl.burstBytes < n →
    acquireLoop n δ fuel k now rl = none
  | 0, _, _, _, _                => rfl
  | fuel + 1, k, now, rl, hn => by
    have hle := refill_le_burst rl now
    rw [acquireLoop, if_neg (not_le.2 (lt_of_le_of_lt hle hn))]
    exact acquireLoop_never δ fuel (k + 1) _ _ hn

theorem acquire_never {rl : RateLimiter} {n : Nat} (hn : rl.burstBytes < n) : ¬ rl.Returns n := by
  intro h
  obtain ⟨fuel, rl', hr⟩ := h (fun _ => 0) (fun _ => le_refl 0)
  rw [acquire, acquireLoop_never _ _ _ _ _ hn] at hr
  cases hr

/-- At rate 0 what the first refill does not bring never comes. -/
theorem acquireLoop_idle {n : ℚ} (δ : Nat → ℚ) : ∀ (fuel k : Nat) (now : ℚ) (rl : RateLimiter), rl.bytesPerSec = 0 →
    min rl.tokens rl.burstBytes < n → acquireLoop n δ fuel k now rl = none
  | 0, _, _, _, _, _                    => rfl
  | fuel + 1, k, now, rl, hrate, hn => by
    have htokens : (rl.refill now).tokens = min rl.tokens rl.burstBytes := by simp [refill, hrate]
    rw [acquireLoop, if_neg (by rw [htokens]; exact not_le.2 hn)]
    refine acquireLoop_idle δ fuel (k + 1) _ _ hrate ?_
    rw [htokens, refill_burstBytes, min_assoc, min_self]
    exact hn

/-- More turns change nothing once the loop has returned. -/
theorem acquireLoop_mono {n : ℚ} {δ : Nat → ℚ} {rl' : RateLimiter} : ∀ {fuel k : Nat} {now : ℚ} {rl : RateLimiter} (m : Nat),
    acquireLoop n δ fuel k now rl = some rl' → acquireLoop n δ (fuel + m) k now rl = some rl'
  | 0, _, _, _, _, h            => by cases h
  | fuel + 1, k, now, rl, m, h => by
    rw [acquireLoop] at h
    rw [Nat.add_right_comm, acquireLoop]
    split at h
    · rename_i hn
      rw [if_pos hn]
      exact h
    · rename_i hn
      rw [if_neg hn]
      exact acquireLoop_mono m h

/-! ## At a rate in kilobits -/

/-- The rate and the cap are those of `kbps`. -/
structure AtRate (kbps : UInt64) (rl : RateLimiter) : Prop where
  rate  : rl.bytesPerSec = rateOf kbps
  burst : rl.burstBytes = max (rateOf kbps) 1

theorem atRate_setKbps (rl : RateLimiter) (kbps : UInt64) : (rl.setKbps kbps).AtRate kbps := ⟨rfl, rfl⟩

theorem rateOf_eq_natCast (kbps : UInt64) : rateOf kbps = ((125 * kbps.toNat : Nat) : ℚ) := by
  unfold rateOf
  push_cast
  ring

namespace AtRate

variable {kbps : UInt64} {rl : RateLimiter} {n : Nat} {δ : Nat → ℚ}

theorem rate_cases (h : rl.AtRate kbps) : kbps.toNat = 0 ∧ rl.bytesPerSec = 0 ∧ rl.burstBytes = 1 ∨
    1 ≤ rl.bytesPerSec ∧ rl.burstBytes = ((125 * kbps.toNat : Nat) : ℚ) := by
  rw [h.rate, h.burst, rateOf_eq_natCast]
  by_cases hk : kbps.toNat = 0
  · exact .inl ⟨hk, by simp [hk], by simp [hk]⟩
  · have hone : (1 : ℚ) ≤ ((125 * kbps.toNat : Nat) : ℚ) := by exact_mod_cast (by omega : 1 ≤ 125 * kbps.toNat)
    exact .inr ⟨hone, max_eq_left hone⟩

/-- **Two turns decide**: what `acquired` leaves is what the loop leaves, after however many turns. -/
theorem acquired_eq_some_iff (h : rl.AtRate kbps) (hδ : ∀ k, 0 ≤ δ k) {rl' : RateLimiter} :
    rl.acquired n δ = some rl' ↔ ∃ fuel, rl.acquire n δ fuel = some rl' := by
  refine ⟨fun hr => ⟨2, hr⟩, fun ⟨fuel, hr⟩ => ?_⟩
  have hfirst : ∃ rl'', rl.acquired n δ = some rl'' := by
    rcases h.rate_cases with ⟨-, hrate, -⟩ | ⟨hrate, -⟩
    · by_cases hn : (n : ℚ) ≤ min rl.tokens rl.burstBytes
      · have htokens : (rl.refill (rl.last + δ 0)).tokens = min rl.tokens rl.burstBytes := by simp [refill, hrate]
        exact ⟨_, by rw [acquired, acquire, acquireLoop, if_pos (by rw [htokens]; exact hn)]⟩
      · rw [acquire, acquireLoop_idle _ _ _ _ _ hrate (not_le.1 hn)] at hr
        cases hr
    · by_cases hn : (n : ℚ) ≤ rl.burstBytes
      · exact acquired_of_le hrate hn hδ
      · rw [acquire, acquireLoop_never _ _ _ _ _ (not_le.1 hn)] at hr
        cases hr
  obtain ⟨rl'', hr'⟩ := hfirst
  -- both are what the loop leaves after `fuel + 2` turns
  have hlong := acquireLoop_mono fuel hr'
  rw [Nat.add_comm] at hlong
  rw [hr', ← hlong]
  exact acquireLoop_mono 2 hr

/-- **Which datagrams get through**: those of one second's worth of traffic. -/
theorem acquired_isSome_iff (h : rl.AtRate kbps) (hδ : ∀ k, 0 ≤ δ k) (hn : 2 ≤ n) :
    (∃ rl', rl.acquired n δ = some rl') ↔ n ≤ 125 * kbps.toNat := by
  have hn' : (2 : ℚ) ≤ n := by exact_mod_cast hn
  constructor
  · rintro ⟨rl', hr⟩
    by_contra hgt
    have hburst : rl.burstBytes < n := by
      rcases h.rate_cases with ⟨-, -, hburst⟩ | ⟨-, hburst⟩
      · rw [hburst]
        linarith
      · rw [hburst]
        exact_mod_cast not_le.1 hgt
    rw [acquired, acquire, acquireLoop_never _ _ _ _ _ hburst] at hr
    cases hr
  · intro hle
    rcases h.rate_cases with ⟨hk, -, -⟩ | ⟨hrate, hburst⟩
    · omega
    · exact acquired_of_le hrate (by rw [hburst]; exact_mod_cast hle) hδ

end AtRate

end RateLimiter

/-- **`acquire` returns exactly when the datagram is no longer than one second's worth of traffic.** -/
theorem acquire_returns_iff (rl : RateLimiter) (hr : rl.Reachable) (kbps : UInt64) (hk : 1 ≤ kbps)
    (hrate : rl.bytesPerSec = RateLimiter.rateOf kbps) (n : Nat) : rl.Returns n ↔ n ≤ 125 * kbps.toNat := by
  have hinv := hr.inv
  have hk' : 1 ≤ kbps.toNat := UInt64.le_iff_toNat_le.1 hk
  have hval := RateLimiter.rateOf_eq_natCast kbps
  have hone : (1 : ℚ) ≤ rl.bytesPerSec := by
    rw [hrate, hval]
    exact_mod_cast (by omega : 1 ≤ 125 * kbps.toNat)
  have hburst : rl.burstBytes = ((125 * kbps.toNat : Nat) : ℚ) := by
    rw [hinv.burst, max_eq_left hone, hrate, hval]
  constructor
  · intro h
    by_contra hn
    refine RateLimiter.acquire_never ?_ h
    rw [hburst]
    exact_mod_cast not_le.1 hn
  · intro hn
    refine RateLimiter.acquire_returns hone ?_
    rw [hburst]
    exact_mod_cast hn

/-- A minimal datagram at the slowest rate. -/
theorem acquire_returns_iff_slowest :
    (RateLimiter.new 1 0).Returns MIN_CHUNK_SIZE ↔ MIN_CHUNK_SIZE ≤ 125 * (1 : UInt64).toNat :=
  acquire_returns_iff _ (.new 1 0) 1 (by decide) rfl MIN_CHUNK_SIZE

/-- **At 30 kbit/s a datagram of the default chunk size blocks for ever.** -/
theorem acquire_blocks_default : ¬ (RateLimiter.new 30 0).Returns DEFAULT_CHUNK_SIZE := by
  refine RateLimiter.acquire_never ?_
  simp only [RateLimiter.new, RateLimiter.rateOf, DEFAULT_CHUNK_SIZE]
  have h30 : ((30 : UInt64).toNat : ℚ) = 30 := by rfl
  rw [h30]
  norm_num

end Parachuter
