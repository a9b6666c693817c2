import Parachuter.RateLimiter
/-!
# Windows — what the token bucket lets through between two grants (`rate_limiter.rs`)

A run is a list of calls on one limiter, `acquire` and `set_kbps` in any order; a call that has returned is a grant, at the
time of its last refill.  `Refilled` says what the refills of a call can do: they cap the bucket, and credit no more than
the time that has passed.  From a grant on, while the rate stays, every byte granted was in the bucket or was credited
since (`granted_le`), and the bucket held one burst at most when the first grant was made (`window_le`).
-/
namespace Parachuter

namespace RateLimiter

/-! ## Runs -/

inductive Op
  | acquire (n : Nat) (δ : Nat → ℚ) (fuel : Nat)
  | setKbps (kbps : UInt64)

/-- The clock does not go back. -/
def Op.Clock : Op → Prop
  | acquire _ δ _ => ∀ k, 0 ≤ δ k
  | setKbps _     => True

structure Grant where
  time  : ℚ
  bytes : Nat
  deriving DecidableEq

/-- The calls one after another, and the grants they make; `none` when one does not return. -/
def run : RateLimiter → List Op → Option (RateLimiter × List Grant)
  | rl, []                      => some (rl, [])
  | rl, .setKbps kbps :: ops    => (rl.setKbps kbps).run ops
  | rl, .acquire n δ fuel :: ops => do
    let granted ← rl.acquire n δ fuel
    let (rl, gs) ← granted.run ops
    some (rl, ⟨granted.last, n⟩ :: gs)

def inForce : UInt64 → List Op → UInt64
  | kbps, []                  => kbps
  | _, .setKbps kbps :: ops   => inForce kbps ops
  | kbps, .acquire _ _ _ :: ops => inForce kbps ops

/-- The largest cap a bucket has had, from the cap `burst` on. -/
def largestBurst : ℚ → List Op → ℚ
  | burst, []                    => burst
  | burst, .setKbps kbps :: ops  => largestBurst (max burst (max (rateOf kbps) 1)) ops
  | burst, .acquire _ _ _ :: ops => largestBurst burst ops

/-- The buckets a call has after each of its refills, whether it returns or not. -/
def turns (n : ℚ) (δ : Nat → ℚ) : Nat → Nat → ℚ → RateLimiter → List RateLimiter
  | 0, _, _, _            => []
  | fuel + 1, k, now, rl =>
    let rl := rl.refill now
    rl :: if n ≤ rl.tokens then []
      else turns n δ fuel (k + 1) (now + (n - rl.tokens) / max rl.bytesPerSec 1 + δ (k + 1)) rl

/-! ## What the refills of a call can do -/

structure Refilled (rl r : RateLimiter) : Prop where
  rate  : r.bytesPerSec = rl.bytesPerSec
  burst : r.burstBytes = rl.burstBytes
  clock : rl.last ≤ r.last
  floor : 0 ≤ r.tokens
  cap   : r.tokens ≤ r.burstBytes
  gain  : r.tokens ≤ rl.tokens + (r.last - rl.last) * rl.bytesPerSec

theorem refilled_refill {rl : RateLimiter} (h : Inv rl) {now : ℚ} (hnow : rl.last ≤ now) : Refilled rl (rl.refill now) where
  rate := rfl
  burst := rfl
  clock := hnow
  floor := (inv_refill h hnow).tokens
  cap := refill_le_burst rl now
  gain := min_le_left _ _

theorem Refilled.trans {a b c : RateLimiter} (h : Refilled a b) (h' : Refilled b c) : Refilled a c where
  rate := h'.rate.trans h.rate
  burst := h'.burst.trans h.burst
  clock := h.clock.trans h'.clock
  floor := h'.floor
  cap := h'.cap
  gain := by
    have h1 := h.gain
    have h2 := h'.gain
    rw [h.rate] at h2
    linarith

theorem le_next {rl : RateLimiter} {n now : ℚ} {δ : Nat → ℚ} (hδ : ∀ k, 0 ≤ δ k) (k : Nat) (hn : ¬ n ≤ rl.tokens) :
    now ≤ now + (n - rl.tokens) / max rl.bytesPerSec 1 + δ (k + 1) := by
  have := secs_nonneg hn
  have := hδ (k + 1)
  linarith

/-- **A call that returns** has refilled the bucket until it held `n`, and taken `n` from it. -/
theorem acquireLoop_some {n : ℚ} {δ : Nat → ℚ} (hδ : ∀ k, 0 ≤ δ k) : ∀ (fuel k : Nat) (now : ℚ) {rl rl' : RateLimiter},
    Inv rl → rl.last ≤ now → acquireLoop n δ fuel k now rl = some rl' →
    ∃ r, Refilled rl r ∧ n ≤ r.tokens ∧ rl' = { r with tokens := r.tokens - n }
  | 0, _, _, _, _, _, _, hr => by cases hr
  | fuel + 1, k, now, rl, rl', h, hnow, hr => by
    have hfirst := refilled_refill h hnow
    rw [acquireLoop] at hr
    split at hr
    · rename_i hn
      exact ⟨_, hfirst, hn, (Option.some.inj hr).symm⟩
    · rename_i hn
      obtain ⟨r, hrest, hle, he⟩ := acquireLoop_some hδ fuel (k + 1) _ (inv_refill h hnow) (le_next hδ k hn) hr
      exact ⟨r, hfirst.trans hrest, hle, he⟩

theorem acquire_some {rl rl' : RateLimiter} (h : Inv rl) {n fuel : Nat} {δ : Nat → ℚ} (hδ : ∀ k, 0 ≤ δ k)
    (hr : rl.acquire n δ fuel = some rl') :
    ∃ r, Refilled rl r ∧ (n : ℚ) ≤ r.tokens ∧ rl' = { r with tokens := r.tokens - n } :=
  acquireLoop_some hδ fuel 0 _ h (by linarith [hδ 0]) hr

theorem refilled_of_mem_turns {n : ℚ} {δ : Nat → ℚ} (hδ : ∀ k, 0 ≤ δ k) : ∀ (fuel k : Nat) (now : ℚ) {rl r : RateLimiter},
    Inv rl → rl.last ≤ now → r ∈ turns n δ fuel k now rl → Refilled rl r
  | 0, _, _, _, _, _, _, hr => by cases hr
  | fuel + 1, k, now, rl, r, h, hnow, hr => by
    have hfirst := refilled_refill h hnow
    rw [turns] at hr
    rcases List.mem_cons.1 hr with rfl | hr
    · exact hfirst
    · split at hr
      · cases hr
      · rename_i hn
        exact hfirst.trans (refilled_of_mem_turns hδ fuel (k + 1) _ (inv_refill h hnow) (le_next hδ k hn) hr)

theorem Refilled.inv {rl r : RateLimiter} (h : Refilled rl r) (hinv : Inv rl) {n : ℚ} (hn : n ≤ r.tokens) :
    Inv { r with tokens := r.tokens - n } where
  rate := by rw [h.rate]; exact hinv.rate
  burst := by
    show r.burstBytes = max r.bytesPerSec 1
    rw [h.burst, h.rate]
    exact hinv.burst
  tokens := sub_nonneg.2 hn

theorem inv_setKbps {rl : RateLimiter} (h : Inv rl) (kbps : UInt64) : Inv (rl.setKbps kbps) :=
  ⟨rateOf_nonneg kbps, rfl, h.tokens⟩

theorem inv_new (kbps : UInt64) (now : ℚ) : Inv (new kbps now) := (Reachable.new kbps now).inv

/-! ## One call of a run, and all of them -/

/-- A property of the limiter that every call keeps holds after a run. -/
theorem run_keeps {P : RateLimiter → List Op → Prop}
    (hset : ∀ rl kbps ops, Inv rl → P rl (.setKbps kbps :: ops) → P (rl.setKbps kbps) ops)
    (hacq : ∀ rl r (n : Nat) δ fuel ops, Refilled rl r → (n : ℚ) ≤ r.tokens → P rl (.acquire n δ fuel :: ops) →
      P { r with tokens := r.tokens - n } ops) : ∀ (ops : List Op) {rl rl' : RateLimiter} {gs : List Grant},
    (∀ op ∈ ops, op.Clock) → Inv rl → P rl ops → run rl ops = some (rl', gs) → Inv rl' ∧ P rl' []
  | [], rl, rl', gs, _, hinv, hP, hr => by
    cases hr
    exact ⟨hinv, hP⟩
  | .setKbps kbps :: ops, rl, rl', gs, hclock, hinv, hP, hr =>
    run_keeps hset hacq ops (fun op h => hclock op (List.mem_cons_of_mem _ h)) (inv_setKbps hinv kbps)
      (hset rl kbps ops hinv hP) hr
  | .acquire n δ fuel :: ops, rl, rl', gs, hclock, hinv, hP, hr => by
    rw [run] at hr
    obtain ⟨granted, hg, hr⟩ := Option.bind_eq_some_iff.1 hr
    obtain ⟨⟨rl'', gs'⟩, hrest, hr⟩ := Option.bind_eq_some_iff.1 hr
    cases hr
    obtain ⟨r, href, hn, rfl⟩ := acquire_some hinv (hclock _ List.mem_cons_self) hg
    exact run_keeps hset hacq ops (fun op h => hclock op (List.mem_cons_of_mem _ h)) (href.inv hinv hn)
      (hacq rl r n δ fuel ops href hn hP) hrest

/-- **The tokens never exceed the largest cap so far**, and neither does the cap in force. -/
theorem tokens_le_largestBurst {ops : List Op} {rl rl' : RateLimiter} {gs : List Grant} {burst : ℚ}
    (hclock : ∀ op ∈ ops, op.Clock) (hinv : Inv rl) (hcap : rl.burstBytes ≤ burst) (htok : rl.tokens ≤ burst)
    (hr : run rl ops = some (rl', gs)) :
    Inv rl' ∧ rl'.burstBytes ≤ largestBurst burst ops ∧ rl'.tokens ≤ largestBurst burst ops := by
  -- a bucket below the largest cap of the calls made so far, which the calls to come can only raise
  refine @run_keeps (fun r rest => ∃ b, r.burstBytes ≤ b ∧ r.tokens ≤ b ∧ largestBurst b rest = largestBurst burst ops)
    ?_ ?_ ops _ _ _ hclock hinv ⟨burst, hcap, htok, rfl⟩ hr |>.imp_right ?_
  · rintro rl kbps rest - ⟨b, h1, h2, h3⟩
    exact ⟨max b (max (rateOf kbps) 1), le_max_right _ _, le_trans h2 (le_max_left _ _), h3⟩
  · rintro rl r n δ fuel rest href hn ⟨b, h1, h2, h3⟩
    have hb : r.burstBytes ≤ b := href.burst.trans_le h1
    refine ⟨b, hb, ?_, h3⟩
    have := href.cap
    have hn0 : (0 : ℚ) ≤ n := Nat.cast_nonneg n
    show r.tokens - n ≤ b
    linarith
  · rintro ⟨b, h1, h2, h3⟩
    rw [← h3]
    exact ⟨h1, h2⟩

theorem bytesPerSec_run {ops : List Op} {rl rl' : RateLimiter} {gs : List Grant} {kbps : UInt64}
    (hclock : ∀ op ∈ ops, op.Clock) (hinv : Inv rl) (hrate : rl.bytesPerSec = rateOf kbps)
    (hr : run rl ops = some (rl', gs)) : rl'.bytesPerSec = rateOf (inForce kbps ops) := by
  obtain ⟨-, k, hk, he⟩ := @run_keeps (fun r rest => ∃ k, r.bytesPerSec = rateOf k ∧ inForce k rest = inForce kbps ops)
    (fun rl k rest _ h => ⟨k, rfl, h.choose_spec.2⟩)
    (fun rl r n δ fuel rest href _ h => ⟨h.choose, href.rate.trans h.choose_spec.1, h.choose_spec.2⟩)
    ops _ _ _ hclock hinv ⟨kbps, hrate, rfl⟩ hr
  rw [hk, ← he]
  rfl

/-! ## Windows of a stretch -/

def granted (gs : List Grant) : ℚ := (gs.map (fun g => (g.bytes : ℚ))).sum

/-- The time of the last grant, or `t` before any. -/
def lastTime (t : ℚ) (gs : List Grant) : ℚ := (gs.getLast?.map Grant.time).getD t

theorem lastTime_cons (t : ℚ) (g : Grant) (gs : List Grant) : lastTime t (g :: gs) = lastTime g.time gs := by
  cases gs with
  | nil => rfl
  | cons h gs => rw [lastTime, lastTime, List.getLast?_cons_cons, List.getLast?_cons]; rfl

/-- No call of the stretch changes the rate. -/
def Steady (rate : ℚ) (ops : List Op) : Prop := ∀ kbps, Op.setKbps kbps ∈ ops → rateOf kbps = rate

theorem setKbps_self {rl : RateLimiter} (h : Inv rl) {kbps : UInt64} (hk : rateOf kbps = rl.bytesPerSec) :
    rl.setKbps kbps = rl := by
  unfold setKbps
  rw [hk, ← h.burst]

/-- **What is granted up to a time** was in the bucket or was credited since. -/
theorem granted_le : ∀ (ops : List Op) {rl rl' : RateLimiter} {gs : List Grant}, (∀ op ∈ ops, op.Clock) → Inv rl →
    Steady rl.bytesPerSec ops → run rl ops = some (rl', gs) → ∀ w b, gs = w ++ b →
    granted w ≤ rl.tokens + (lastTime rl.last w - rl.last) * rl.bytesPerSec
  | [], rl, rl', gs, _, hinv, _, hr, w, b, hw => by
    cases hr
    obtain ⟨rfl, -⟩ := List.append_eq_nil_iff.1 hw.symm
    have := hinv.tokens
    simpa [granted, lastTime] using this
  | .setKbps kbps :: ops, rl, rl', gs, hclock, hinv, hst, hr, w, b, hw => by
    rw [run, setKbps_self hinv (hst kbps List.mem_cons_self)] at hr
    exact granted_le ops (fun op h => hclock op (List.mem_cons_of_mem _ h)) hinv
      (fun k hk => hst k (List.mem_cons_of_mem _ hk)) hr w b hw
  | .acquire n δ fuel :: ops, rl, rl', gs, hclock, hinv, hst, hr, w, b, hw => by
    rw [run] at hr
    obtain ⟨r1, hg, hr⟩ := Option.bind_eq_some_iff.1 hr
    obtain ⟨⟨rl'', gs'⟩, hrest, hr⟩ := Option.bind_eq_some_iff.1 hr
    cases hr
    obtain ⟨r, href, hn, rfl⟩ := acquire_some hinv (hclock _ List.mem_cons_self) hg
    cases w with
    | nil =>
      have := hinv.tokens
      simpa [granted, lastTime] using this
    | cons g w =>
      rw [List.cons_append, List.cons.injEq] at hw
      obtain ⟨rfl, hw⟩ := hw
      have hrate : r.bytesPerSec = rl.bytesPerSec := href.rate
      have ih := granted_le ops (fun op h => hclock op (List.mem_cons_of_mem _ h)) (href.inv hinv hn)
        (fun k hk => (hst k (List.mem_cons_of_mem _ hk)).trans hrate.symm) hrest w b hw
      have hgain := href.gain
      rw [lastTime_cons]
      simp only [granted, List.map_cons, List.sum_cons] at ih ⊢
      rw [hrate] at ih
      linarith

/-- **A window of a stretch**: from one grant to a later one, a burst and what the time between is worth. -/
theorem window_le : ∀ (ops : List Op) {rl rl' : RateLimiter} {gs : List Grant}, (∀ op ∈ ops, op.Clock) → Inv rl →
    Steady rl.bytesPerSec ops → run rl ops = some (rl', gs) → ∀ a g w b, gs = a ++ (g :: w) ++ b →
    granted (g :: w) ≤ rl.burstBytes + (lastTime g.time w - g.time) * rl.bytesPerSec
  | [], rl, rl', gs, _, _, _, hr, a, g, w, b, hw => by
    cases hr
    simp at hw
  | .setKbps kbps :: ops, rl, rl', gs, hclock, hinv, hst, hr, a, g, w, b, hw => by
    rw [run, setKbps_self hinv (hst kbps List.mem_cons_self)] at hr
    exact window_le ops (fun op h => hclock op (List.mem_cons_of_mem _ h)) hinv
      (fun k hk => hst k (List.mem_cons_of_mem _ hk)) hr a g w b hw
  | .acquire n δ fuel :: ops, rl, rl', gs, hclock, hinv, hst, hr, a, g, w, b, hw => by
    rw [run] at hr
    obtain ⟨r1, hg, hr⟩ := Option.bind_eq_some_iff.1 hr
    obtain ⟨⟨rl'', gs'⟩, hrest, hr⟩ := Option.bind_eq_some_iff.1 hr
    cases hr
    obtain ⟨r, href, hn, rfl⟩ := acquire_some hinv (hclock _ List.mem_cons_self) hg
    have hclock' : ∀ op ∈ ops, op.Clock := fun op h => hclock op (List.mem_cons_of_mem _ h)
    have hrate : r.bytesPerSec = rl.bytesPerSec := href.rate
    have hst' : Steady r.bytesPerSec ops := fun k hk => (hst k (List.mem_cons_of_mem _ hk)).trans hrate.symm
    cases a with
    | nil =>
      rw [List.nil_append, List.cons_append, List.cons.injEq] at hw
      obtain ⟨rfl, hw⟩ := hw
      have hlater := granted_le ops hclock' (href.inv hinv hn) hst' hrest w b hw
      have hcap := href.cap
      rw [href.burst] at hcap
      simp only [granted, List.map_cons, List.sum_cons] at hlater ⊢
      rw [hrate] at hlater
      linarith
    | cons x a =>
      rw [List.cons_append, List.cons_append, List.cons.injEq] at hw
      have ih := window_le ops hclock' (href.inv hinv hn) hst' hrest a g w b hw.2
      dsimp only at ih
      rwa [hrate, href.burst] at ih

theorem rateOf_eq (kbps : UInt64) : rateOf kbps = kbps.toNat * 125 := by
  unfold rateOf
  ring

end RateLimiter

open RateLimiter

/-- **The rate cap holds over every window, and the tokens stay between nothing and the largest cap so far**: after any calls
`pre`, while the calls `seg` leave the rate as it is, what is granted from one grant to a later one is at most a burst and
what the time between them is worth. -/
theorem rate_cap_over_windows (kbps₀ : UInt64) (now₀ : ℚ) (pre seg : List Op) (rl rl' : RateLimiter) (gs₀ gs : List Grant)
    (hclock : ∀ op ∈ pre ++ seg, op.Clock) (hpre : (RateLimiter.new kbps₀ now₀).run pre = some (rl, gs₀))
    (hseg : rl.run seg = some (rl', gs)) (hsame : ∀ k, Op.setKbps k ∈ seg → k = inForce kbps₀ pre) :
    let rate : ℚ := (inForce kbps₀ pre).toNat * 125
    let largest := largestBurst (max (rateOf kbps₀) 1) pre
    (∀ a g w b, gs = a ++ (g :: w) ++ b → granted (g :: w) ≤ max rate 1 + rate * (lastTime g.time w - g.time)) ∧
    (0 ≤ rl.tokens ∧ rl.tokens ≤ largest) ∧
    ∀ (n fuel : Nat) (δ : Nat → ℚ), (∀ k, 0 ≤ δ k) → ∀ r ∈ turns n δ fuel 0 (rl.last + δ 0) rl,
      0 ≤ r.tokens ∧ r.tokens ≤ largest := by
  intro rate largest
  have hclock₁ : ∀ op ∈ pre, op.Clock := fun op h => hclock op (List.mem_append_left _ h)
  have hclock₂ : ∀ op ∈ seg, op.Clock := fun op h => hclock op (List.mem_append_right _ h)
  have hnew := inv_new kbps₀ now₀
  obtain ⟨hinv, hburst, htok⟩ := tokens_le_largestBurst hclock₁ hnew (le_refl _) (le_refl _) hpre
  have hrate : rl.bytesPerSec = rate := by rw [bytesPerSec_run hclock₁ hnew rfl hpre, rateOf_eq]
  refine ⟨fun a g w b hw => ?_, ⟨hinv.tokens, htok⟩, fun n fuel δ hδ r hr => ?_⟩
  · have hst : Steady rl.bytesPerSec seg := fun k hk => by rw [hsame k hk, rateOf_eq, hrate]
    have hwin := window_le seg hclock₂ hinv hst hseg a g w b hw
    rwa [hinv.burst, hrate, mul_comm (lastTime g.time w - g.time)] at hwin
  · have href := refilled_of_mem_turns hδ fuel 0 _ hinv (by linarith [hδ 0]) hr
    exact ⟨href.floor, le_trans href.cap (href.burst.trans_le hburst)⟩

/-- Lowered from 80 kbit/s to 8: of a bucket of ten thousand bytes a thousand are left, and half a second brings five
hundred more. -/
theorem rate_cap_over_windows_lowered :
    let seg := [Op.acquire 1000 (fun _ => 0) 2, .acquire 500 (fun _ => 0) 2]
    let gs : List Grant := [⟨0, 1000⟩, ⟨1 / 2, 500⟩]
    ∃ rl rl', (RateLimiter.new 80 0).run [.setKbps 8] = some (rl, []) ∧ rl.run seg = some (rl', gs) ∧
      granted gs ≤ max (((8 : UInt64).toNat : ℚ) * 125) 1 + ((8 : UInt64).toNat : ℚ) * 125 * (1 / 2 - 0) ∧
      0 ≤ rl.tokens := by
  intro seg gs
  have hseg : ((RateLimiter.new 80 0).setKbps 8).run seg = some (⟨1000, 1000, 0, 1 / 2⟩, gs) := by decide +kernel
  obtain ⟨hwin, htok, -⟩ := rate_cap_over_windows 80 0 [.setKbps 8] seg _ _ [] gs
    (by simp [seg, Op.Clock]) rfl hseg (by simp [seg])
  exact ⟨_, _, rfl, hseg, hwin [] _ _ [] rfl, htok.1⟩

end Parachuter
