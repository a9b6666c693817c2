import Mathlib.Logic.Basic
/-!
# Programs over calls that may fail

A program is a tree of calls to a machine (a file system, a socket): each call has a full effect on the machine's state
and an answer, and the program goes on from the answer.  The same program is read twice.

* `exec`: every call takes its full effect.  This is the reading of a run without faults.
* `run`: a schedule strikes some of the calls.  A struck call takes only part of its effect (`torn`, counted by `cut`)
  and then either reports an error the program can handle, or kills the process.

`wp may c Q s` is the weakest condition on `s` under which every run of `c` whose strikes all satisfy `may` ends with
`Q`; `wp_sound` says so, and the `wp_*` equations are the rules of pre- and postconditions for each construct.
-/
namespace Calls

/-- What a schedule does to one call: stop it after `cut` units of its effect, and report an error or kill the process. -/
inductive Strike
  | fail (cut : Nat)
  | crash (cut : Nat)
  deriving DecidableEq, Repr

def Strike.cut : Strike → Nat
  | .fail n  => n
  | .crash n => n

def Strike.isFail : Strike → Bool
  | .fail _  => true
  | .crash _ => false

/-- The calls of a machine with state `σ`. -/
structure Machine (σ : Type) where
  Call  : Type
  Ret   : Call → Type
  IoErr : Type
  /-- The full effect and the answer. -/
  sem   : (c : Call) → σ → Except IoErr (Ret c) × σ
  /-- The error a struck call reports. -/
  fault : IoErr
  /-- The first `cut` units of the effect. -/
  torn  : Call → Nat → σ → σ

inductive Prog {σ : Type} (M : Machine σ) (ε α : Type) : Type
  | ret (a : α)
  | err (e : ε)
  | panic
  | call (c : M.Call) (k : Except M.IoErr (M.Ret c) → Prog M ε α)

inductive Res (ε α : Type)
  | ok (a : α)
  | err (e : ε)
  | panic
  | crash
  deriving DecidableEq, Repr

variable {σ : Type} {M : Machine σ} {ε α β : Type}

/-- The value, where there is one. -/
def Res.toOption : Res ε α → Option α
  | .ok a => some a
  | _     => none

/-! ## Sequencing -/

def Prog.bind : Prog M ε α → (α → Prog M ε β) → Prog M ε β
  | .ret a,    f => f a
  | .err e,    _ => .err e
  | .panic,    _ => .panic
  | .call c k, f => .call c (fun r => (k r).bind f)

/-- The program's own error as a value. -/
def Prog.attempt : Prog M ε α → Prog M ε (Except ε α)
  | .ret a    => .ret (.ok a)
  | .err e    => .ret (.error e)
  | .panic    => .panic
  | .call c k => .call c (fun r => (k r).attempt)

instance : Monad (Prog M ε) where
  pure := .ret
  bind := .bind

@[simp] theorem pure_eq (a : α) : (pure a : Prog M ε α) = .ret a := rfl

/-! ## Without faults -/

def Prog.exec : Prog M ε α → σ → Res ε α × σ
  | .ret a, s    => (.ok a, s)
  | .err e, s    => (.err e, s)
  | .panic, s    => (.panic, s)
  | .call c k, s => (k (M.sem c s).1).exec (M.sem c s).2

/-- The rest of a sequence, from the result of its first part. -/
def Res.andThen (f : α → σ → Res ε β × σ) : Res ε α × σ → Res ε β × σ
  | (.ok a, s)  => f a s
  | (.err e, s) => (.err e, s)
  | (.panic, s) => (.panic, s)
  | (.crash, s) => (.crash, s)

@[simp] theorem exec_ret (a : α) (s : σ) : (Prog.ret a : Prog M ε α).exec s = (.ok a, s) := rfl
@[simp] theorem exec_err (e : ε) (s : σ) : (Prog.err e : Prog M ε α).exec s = (.err e, s) := rfl
@[simp] theorem exec_panic (s : σ) : (Prog.panic : Prog M ε α).exec s = (.panic, s) := rfl
@[simp] theorem exec_call (c : M.Call) (k : Except M.IoErr (M.Ret c) → Prog M ε α) (s : σ) :
    (Prog.call c k).exec s = (k (M.sem c s).1).exec (M.sem c s).2 := rfl

@[simp] theorem andThen_ok (f : α → σ → Res ε β × σ) (a : α) (s : σ) : Res.andThen f (.ok a, s) = f a s := rfl
@[simp] theorem andThen_err (f : α → σ → Res ε β × σ) (e : ε) (s : σ) : Res.andThen f (.err e, s) = (.err e, s) := rfl
@[simp] theorem andThen_panic (f : α → σ → Res ε β × σ) (s : σ) :
    Res.andThen (ε := ε) f (.panic, s) = (.panic, s) := rfl

@[simp] theorem exec_bind (c : Prog M ε α) (f : α → Prog M ε β) (s : σ) :
    (c >>= f).exec s = Res.andThen (fun a => (f a).exec) (c.exec s) := by
  show (c.bind f).exec s = _
  induction c generalizing s with
  | ret a => rfl
  | err e => rfl
  | panic => rfl
  | call c k ih => exact ih _ _

/-- What `attempt` makes of a result. -/
def Res.reify : Res ε α → Res ε (Except ε α)
  | .ok a  => .ok (.ok a)
  | .err e => .ok (.error e)
  | .panic => .panic
  | .crash => .crash

@[simp] theorem exec_attempt (c : Prog M ε α) (s : σ) :
    c.attempt.exec s = ((c.exec s).1.reify, (c.exec s).2) := by
  induction c generalizing s with
  | ret a => rfl
  | err e => rfl
  | panic => rfl
  | call c k ih => exact ih _ _

@[simp] theorem reify_ok (a : α) : (Res.ok a : Res ε α).reify = .ok (.ok a) := rfl
@[simp] theorem reify_err (e : ε) : (Res.err e : Res ε α).reify = .ok (.error e) := rfl

theorem exec_ne_crash (c : Prog M ε α) (s : σ) : (c.exec s).1 ≠ .crash := by
  induction c generalizing s with
  | ret a => simp
  | err e => simp
  | panic => simp
  | call c k ih => exact ih _ _

/-- From a state with `P`, the program ends in one, however it ends; and what it returns has `R`. -/
def Prog.Keeps (P : σ → Prop) (R : α → Prop) (c : Prog M ε α) : Prop :=
  ∀ s, P s → P (c.exec s).2 ∧ ∀ a, (c.exec s).1 = .ok a → R a

/-- What nothing is asked of. -/
def Any (_ : α) : Prop := True

section Keeps

variable {P : σ → Prop} {R : α → Prop} {R' : β → Prop}

theorem keeps_ret {a : α} (h : R a) : (Prog.ret a : Prog M ε α).Keeps P R := fun _ hs =>
  ⟨hs, fun _ heq => by cases heq; exact h⟩

theorem keeps_bind {c : Prog M ε α} {f : α → Prog M ε β} (hc : c.Keeps P R) (hf : ∀ a, R a → (f a).Keeps P R') :
    (c >>= f).Keeps P R' := by
  intro s h
  have hmid := hc s h
  rw [exec_bind]
  cases hexec : c.exec s with
  | mk r s' =>
    rw [hexec] at hmid
    cases r with
    | ok a => exact hf a (hmid.2 a rfl) s' hmid.1
    | err e => exact ⟨hmid.1, fun _ heq => by cases heq⟩
    | panic => exact ⟨hmid.1, fun _ heq => by cases heq⟩
    | crash => exact ⟨hmid.1, fun _ heq => by cases heq⟩

/-- What every call keeps, every program keeps. -/
theorem exec_keeps (h : ∀ c s, P s → P (M.sem c s).2) (c : Prog M ε α) {s : σ} (hs : P s) : P (c.exec s).2 := by
  induction c generalizing s with
  | ret a => exact hs
  | err e => exact hs
  | panic => exact hs
  | call c k ih => exact ih _ (h c s hs)

theorem keeps_attempt {c : Prog M ε α} (hc : c.Keeps P R) : c.attempt.Keeps P (fun r => ∀ a, r = .ok a → R a) := by
  intro s h
  have hmid := hc s h
  rw [exec_attempt]
  refine ⟨hmid.1, fun r hr a ha => hmid.2 a ?_⟩
  subst ha
  cases hres : (c.exec s).1 <;> rw [hres] at hr <;> cases hr
  rfl

end Keeps

/-! ## Under a schedule of strikes -/

/-- One entry of the schedule per call, in order; past its end every call succeeds. -/
def Prog.run : Prog M ε α → List (Option Strike) → σ → Res ε α × σ
  | .ret a, _, s    => (.ok a, s)
  | .err e, _, s    => (.err e, s)
  | .panic, _, s    => (.panic, s)
  | .call c k, fs, s =>
    match fs.head?.join with
    | none            => (k (M.sem c s).1).run fs.tail (M.sem c s).2
    | some (.fail n)  => (k (.error M.fault)).run fs.tail (M.torn c n s)
    | some (.crash n) => (.crash, M.torn c n s)

/-- Every strike of the schedule that hits a call of the run satisfies `may`, at the state it hits. -/
def Prog.Meets (may : M.Call → Strike → σ → Prop) : Prog M ε α → List (Option Strike) → σ → Prop
  | .ret _, _, _     => True
  | .err _, _, _     => True
  | .panic, _, _     => True
  | .call c k, fs, s =>
    match fs.head?.join with
    | none            => (k (M.sem c s).1).Meets may fs.tail (M.sem c s).2
    | some (.fail n)  => may c (.fail n) s ∧ (k (.error M.fault)).Meets may fs.tail (M.torn c n s)
    | some (.crash n) => may c (.crash n) s

instance Prog.decidableMeets (may : M.Call → Strike → σ → Prop) [∀ c t s, Decidable (may c t s)] :
    (p : Prog M ε α) → (fs : List (Option Strike)) → (s : σ) → Decidable (p.Meets may fs s)
  | .ret _, _, _     => .isTrue trivial
  | .err _, _, _     => .isTrue trivial
  | .panic, _, _     => .isTrue trivial
  | .call c k, fs, s =>
    match h : fs.head?.join with
    | none            =>
      have := decidableMeets may (k (M.sem c s).1) fs.tail (M.sem c s).2
      decidable_of_iff' ((k (M.sem c s).1).Meets may fs.tail (M.sem c s).2) (by simp only [Meets, h])
    | some (.fail n)  =>
      have := decidableMeets may (k (.error M.fault)) fs.tail (M.torn c n s)
      decidable_of_iff' (may c (.fail n) s ∧ (k (.error M.fault)).Meets may fs.tail (M.torn c n s))
        (by simp only [Meets, h])
    | some (.crash n) => decidable_of_iff' (may c (.crash n) s) (by simp only [Meets, h])

/-- **A schedule without strikes is the plain reading.** -/
theorem run_nil (c : Prog M ε α) (s : σ) : c.run [] s = c.exec s := by
  induction c generalizing s with
  | ret a => rfl
  | err e => rfl
  | panic => rfl
  | call c k ih => exact ih _ _

theorem meets_of_all {may : M.Call → Strike → σ → Prop} (h : ∀ c t s, may c t s) (c : Prog M ε α)
    (fs : List (Option Strike)) (s : σ) : c.Meets may fs s := by
  induction c generalizing fs s with
  | ret a => trivial
  | err e => trivial
  | panic => trivial
  | call c k ih =>
    simp only [Prog.Meets]
    split
    · exact ih _ _ _
    · exact ⟨h _ _ _, ih _ _ _⟩
    · exact h _ _ _

theorem meets_nil (may : M.Call → Strike → σ → Prop) (c : Prog M ε α) (s : σ) : c.Meets may [] s := by
  induction c generalizing s with
  | ret a => trivial
  | err e => trivial
  | panic => trivial
  | call c k ih => exact ih _ _

def Prog.wp (may : M.Call → Strike → σ → Prop) : Prog M ε α → (Res ε α → σ → Prop) → σ → Prop
  | .ret a, Q, s    => Q (.ok a) s
  | .err e, Q, s    => Q (.err e) s
  | .panic, Q, s    => Q .panic s
  | .call c k, Q, s =>
    (k (M.sem c s).1).wp may Q (M.sem c s).2 ∧
    (∀ n, may c (.fail n) s → (k (.error M.fault)).wp may Q (M.torn c n s)) ∧
    (∀ n, may c (.crash n) s → Q .crash (M.torn c n s))

variable {may : M.Call → Strike → σ → Prop}

/-- **The rules are sound**: under `wp`, every run whose strikes are allowed ends in `Q`. -/
theorem wp_sound {Q : Res ε α → σ → Prop} (c : Prog M ε α) {s : σ} (h : c.wp may Q s) (fs : List (Option Strike))
    (hm : c.Meets may fs s) : Q (c.run fs s).1 (c.run fs s).2 := by
  induction c generalizing s fs with
  | ret a => exact h
  | err e => exact h
  | panic => exact h
  | call c k ih =>
    obtain ⟨hok, hfail, hcrash⟩ := h
    simp only [Prog.Meets] at hm
    simp only [Prog.run]
    -- the schedule's head decides how this call ends, in the run and in `Meets` alike
    split at hm
    · exact ih _ hok _ hm
    · rename_i n _
      exact ih _ (hfail n hm.1) _ hm.2
    · rename_i n _
      exact hcrash n hm

theorem wp_mono {Q Q' : Res ε α → σ → Prop} (hQ : ∀ r s, Q r s → Q' r s) (c : Prog M ε α) {s : σ}
    (h : c.wp may Q s) : c.wp may Q' s := by
  induction c generalizing s with
  | ret a => exact hQ _ _ h
  | err e => exact hQ _ _ h
  | panic => exact hQ _ _ h
  | call c k ih =>
    obtain ⟨hok, hfail, hcrash⟩ := h
    exact ⟨ih _ hok, fun n hn => ih _ (hfail n hn), fun n hn => hQ _ _ (hcrash n hn)⟩

/-- The postcondition a sequence asks of its first part. -/
def Res.thenWp (may : M.Call → Strike → σ → Prop) (f : α → Prog M ε β) (Q : Res ε β → σ → Prop) :
    Res ε α → σ → Prop
  | .ok a  => (f a).wp may Q
  | .err e => Q (.err e)
  | .panic => Q .panic
  | .crash => Q .crash

theorem thenWp_of_ne_ok {f : α → Prog M ε β} {Q : Res ε β → σ → Prop} {r : Res ε α} {s : σ} (hr : ∀ a, r ≠ .ok a)
    (hQ : ∀ r, (∀ b, r ≠ .ok b) → Q r s) : Res.thenWp may f Q r s := by
  cases r with
  | ok a => exact absurd rfl (hr a)
  | err e => exact hQ _ (by simp)
  | panic => exact hQ _ (by simp)
  | crash => exact hQ _ (by simp)

theorem wp_bind (c : Prog M ε α) (f : α → Prog M ε β) (Q : Res ε β → σ → Prop) (s : σ) :
    (c >>= f).wp may Q s ↔ c.wp may (Res.thenWp may f Q) s := by
  show (c.bind f).wp may Q s ↔ _
  induction c generalizing s with
  | ret a => exact Iff.rfl
  | err e => exact Iff.rfl
  | panic => exact Iff.rfl
  | call c k ih =>
    simp only [Prog.bind, Prog.wp, ih]
    exact Iff.rfl

theorem wp_attempt (c : Prog M ε α) (Q : Res ε (Except ε α) → σ → Prop) (s : σ) :
    c.attempt.wp may Q s ↔ c.wp may (fun r => Q r.reify) s := by
  induction c generalizing s with
  | ret a => exact Iff.rfl
  | err e => exact Iff.rfl
  | panic => exact Iff.rfl
  | call c k ih =>
    simp only [Prog.attempt, Prog.wp, ih]
    exact Iff.rfl

/-! ## What every run keeps -/

/-- How a program may end: with a value that has `R`, with an error, with the process killed; with a panic only where
`panics`. -/
def Res.Ends (panics : Prop) (R : α → Prop) : Res ε α → Prop
  | .ok a  => R a
  | .err _ => True
  | .panic => panics
  | .crash => True

/-- From a state with `P`, every run whose strikes are allowed ends in one, and ends as `Ends` says. -/
def Prog.Always (may : M.Call → Strike → σ → Prop) (panics : Prop) (P : σ → Prop) (R : α → Prop) (c : Prog M ε α) : Prop :=
  ∀ s, P s → c.wp may (fun r s' => P s' ∧ r.Ends panics R) s

section Always

variable {panics : Prop} {P : σ → Prop} {R : α → Prop} {R' : β → Prop}

theorem always_ret {a : α} (h : R a) : (Prog.ret a : Prog M ε α).Always may panics P R := fun _ hs => ⟨hs, h⟩

theorem always_err (e : ε) : (Prog.err e : Prog M ε α).Always may panics P R := fun _ hs => ⟨hs, trivial⟩

theorem always_panic (h : panics) : (Prog.panic : Prog M ε α).Always may panics P R := fun _ hs => ⟨hs, h⟩

theorem always_bind {c : Prog M ε α} {f : α → Prog M ε β} (hc : c.Always may panics P R)
    (hf : ∀ a, R a → (f a).Always may panics P R') : (c >>= f).Always may panics P R' := by
  intro s hs
  rw [wp_bind]
  refine wp_mono (fun r s' hr => ?_) _ (hc s hs)
  cases r with
  | ok a => exact hf a hr.2 s' hr.1
  | err e => exact ⟨hr.1, trivial⟩
  | panic => exact ⟨hr.1, hr.2⟩
  | crash => exact ⟨hr.1, trivial⟩

theorem always_attempt {c : Prog M ε α} (hc : c.Always may panics P R) :
    c.attempt.Always may panics P (fun r => ∀ a, r = .ok a → R a) := by
  intro s hs
  rw [wp_attempt]
  refine wp_mono (fun r s' hr => ⟨hr.1, ?_⟩) _ (hc s hs)
  cases r with
  | ok a =>
    intro b hb
    cases hb
    exact hr.2
  | err e =>
    intro b hb
    cases hb
  | panic => exact hr.2
  | crash => trivial

/-- **What every run keeps, the run without faults keeps.** -/
theorem Prog.Always.keeps {c : Prog M ε α} (hc : c.Always may panics P R) : c.Keeps P R := by
  intro s hs
  have hrun := wp_sound c (hc s hs) [] (meets_nil may c s)
  rw [run_nil] at hrun
  refine ⟨hrun.1, fun a ha => ?_⟩
  have hend := hrun.2
  rw [ha] at hend
  exact hend

end Always

end Calls
