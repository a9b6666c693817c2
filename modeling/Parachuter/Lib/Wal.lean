import Mathlib.Data.List.Basic
/-!
# Write-ahead logs — committed states, of which a loss of power may take the last

A store has a state that is safe on disk, and the states committed since, the latest first.  A checkpoint makes the
latest one safe; a loss of power takes some of the latest commits, never an earlier one without those after it.
`Remembers P w safe ops` says that the commits of `w` were made by the operations `ops`, one after the other, and that the
safe state comes after the first of them, `safe`; `P s ops` says what it is for `s` to be the state after `ops`.  Each
rule below is one thing a store does; after a loss of power it remembers a prefix of what it did (`Remembers.cut`).
-/

structure Wal (σ : Type) where
  base : σ
  log  : List σ
  deriving DecidableEq, Repr

namespace Wal

variable {σ Op : Type} {P : σ → List Op → Prop}

def current (w : Wal σ) : σ := w.log.headD w.base

def commit (w : Wal σ) (s : σ) : Wal σ := { w with log := s :: w.log }

def checkpoint (w : Wal σ) : Wal σ := ⟨w.current, []⟩

/-- The last `n` commits are lost. -/
def cut (w : Wal σ) (n : Nat) : Wal σ := { w with log := w.log.drop n }

/-- How a log came about. -/
inductive Trail (P : σ → List Op → Prop) (base : σ) (safe : List Op) : List σ → List Op → Prop
  | base (h : P base safe) : Trail P base safe [] safe
  | commit {log : List σ} {ops : List Op} (h : Trail P base safe log ops) {s : σ} (more : List Op)
      (hs : P s (ops ++ more)) : Trail P base safe (s :: log) (ops ++ more)
  | silent {log : List σ} {ops : List Op} (h : Trail P base safe log ops) (more : List Op)
      (hs : P (log.headD base) (ops ++ more)) : Trail P base safe log (ops ++ more)

def Remembers (P : σ → List Op → Prop) (w : Wal σ) (safe ops : List Op) : Prop := Trail P w.base safe w.log ops

theorem Trail.current {base : σ} {safe ops : List Op} {log : List σ} (h : Trail P base safe log ops) :
    P (log.headD base) ops := by
  cases h with
  | base h           => exact h
  | commit _ more hs => exact hs
  | silent _ more hs => exact hs

theorem Trail.safe_prefix {base : σ} {safe ops : List Op} {log : List σ} (h : Trail P base safe log ops) :
    safe <+: ops := by
  induction h with
  | base _             => exact List.prefix_refl _
  | commit _ more _ ih => exact ih.trans (List.prefix_append _ _)
  | silent _ more _ ih => exact ih.trans (List.prefix_append _ _)

/-- Without its last commits a log came about by fewer operations. -/
theorem Trail.drop {base : σ} {safe ops : List Op} {log : List σ} (h : Trail P base safe log ops) (n : Nat) :
    ∃ ops', ops' <+: ops ∧ Trail P base safe (log.drop n) ops' := by
  induction h generalizing n with
  | base h => exact ⟨safe, List.prefix_refl _, by rw [List.drop_nil]; exact .base h⟩
  | commit h more hs ih =>
    cases n with
    | zero => exact ⟨_, List.prefix_refl _, h.commit more hs⟩
    | succ n =>
      obtain ⟨ops', hpre, hops'⟩ := ih n
      exact ⟨ops', hpre.trans (List.prefix_append _ _), hops'⟩
  | silent h more hs ih =>
    obtain ⟨ops', hpre, hops'⟩ := ih n
    exact ⟨ops', hpre.trans (List.prefix_append _ _), hops'⟩

variable {w : Wal σ} {safe ops : List Op}

theorem remembers_base {s : σ} (h : P s ops) : Remembers P ⟨s, []⟩ ops ops := .base h

theorem Remembers.current (h : Remembers P w safe ops) : P w.current ops := Trail.current h

theorem Remembers.safe_prefix (h : Remembers P w safe ops) : safe <+: ops := Trail.safe_prefix h

theorem Remembers.commit (h : Remembers P w safe ops) {s : σ} (more : List Op) (hs : P s (ops ++ more)) :
    Remembers P (w.commit s) safe (ops ++ more) := Trail.commit h more hs

/-- A commit that leaves the store as after the same operations. -/
theorem Remembers.recommit (h : Remembers P w safe ops) {s : σ} (hs : P s ops) : Remembers P (w.commit s) safe ops := by
  have := h.commit (s := s) [] (by rwa [List.append_nil])
  rwa [List.append_nil] at this

theorem Remembers.silent (h : Remembers P w safe ops) (more : List Op) (hs : P w.current (ops ++ more)) :
    Remembers P w safe (ops ++ more) := Trail.silent h more hs

theorem Remembers.checkpoint (h : Remembers P w safe ops) : Remembers P w.checkpoint ops ops := .base h.current

/-- **A loss of power takes the last operations, and none that was safe.** -/
theorem Remembers.cut (h : Remembers P w safe ops) (n : Nat) :
    ∃ ops', safe <+: ops' ∧ ops' <+: ops ∧ Remembers P (w.cut n) safe ops' := by
  obtain ⟨ops', hpre, hops'⟩ := Trail.drop h n
  exact ⟨ops', hops'.safe_prefix, hpre, hops'⟩

end Wal
