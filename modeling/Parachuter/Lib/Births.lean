import Mathlib.Data.List.Induction
import Mathlib.Data.Set.Basic
/-!
# Births — where what a system holds came from

A system goes from state to state by events and holds things.  An event may start to hold some, and it may clear: then
nothing is held but what it starts itself.  `Holding` says this of one step; `born` says of whatever is held after a run
which event started it, with nothing cleared since.
-/
namespace Births

variable {σ ε ι : Type*} {step : σ → ε → σ}

/-- What the states of `step` hold, under an invariant. -/
structure Holding (ι : Type*) (step : σ → ε → σ) where
  inv     : σ → Prop
  held    : σ → Set ι
  starts  : σ → ε → Set ι
  clears  : ε → Prop
  keeps   : ∀ {s} e, inv s → inv (step s e)
  grows   : ∀ {s} e, inv s → held (step s e) ⊆ held s ∪ starts s e
  cleared : ∀ {s e}, inv s → clears e → held (step s e) ⊆ starts s e

namespace Holding

variable (H : Holding ι step) {s₀ : σ}

theorem inv_run (h₀ : H.inv s₀) : ∀ es : List ε, H.inv (es.foldl step s₀) := by
  intro es
  induction es using List.reverseRecOn with
  | nil => exact h₀
  | append_singleton es e ih =>
    rw [List.foldl_append]
    exact H.keeps e ih

/-- `e`, in the middle of the run, starts to hold `x`, and nothing after it clears. -/
def Born (s₀ : σ) (es : List ε) (x : ι) (pre : List ε) (e : ε) (post : List ε) : Prop :=
  es = pre ++ e :: post ∧ x ∈ H.starts (pre.foldl step s₀) e ∧ ∀ e' ∈ post, ¬ H.clears e'

/-- **What is held was there from the start, or was started**, and is not of before anything that cleared. -/
theorem born (h₀ : H.inv s₀) : ∀ (es : List ε) {x : ι}, x ∈ H.held (es.foldl step s₀) →
    (x ∈ H.held s₀ ∧ ∀ e ∈ es, ¬ H.clears e) ∨ ∃ pre e post, H.Born s₀ es x pre e post := by
  intro es
  induction es using List.reverseRecOn with
  | nil => exact fun hx => .inl ⟨hx, by simp⟩
  | append_singleton es e ih =>
    intro x hx
    rw [List.foldl_append] at hx
    have hinv := H.inv_run h₀ es
    by_cases hstart : x ∈ H.starts (es.foldl step s₀) e
    · exact .inr ⟨es, e, [], rfl, hstart, by simp⟩
    have hclear : ¬ H.clears e := fun hc => hstart (H.cleared hinv hc hx)
    have hlater : ∀ {es' : List ε}, (∀ e' ∈ es', ¬ H.clears e') → ∀ e' ∈ es' ++ [e], ¬ H.clears e' := by
      intro es' hall e' he'
      rcases List.mem_append.1 he' with he' | he'
      · exact hall e' he'
      · rw [List.mem_singleton.1 he']
        exact hclear
    rcases ih ((H.grows e hinv hx).resolve_right hstart) with ⟨hheld, hall⟩ | ⟨pre, e₀, post, rfl, hx₀, hall⟩
    · exact .inl ⟨hheld, hlater hall⟩
    · exact .inr ⟨pre, e₀, post ++ [e], by simp, hx₀, hlater hall⟩

end Holding

end Births
