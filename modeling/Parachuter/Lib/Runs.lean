import Mathlib.Algebra.Ring.Nat
import Mathlib.Data.List.Sort
import Mathlib.Order.Interval.Finset.Nat
/-!
# Runs — a set of numbers as its list of maximal ranges

A range is a first number and a length.  `IsRuns P l` says that `l` lists the numbers of `P` as non-empty ranges, in order
and with a gap between one and the next.  The ranges of such a list are the maximal runs of `P` (`mem_iff`), so a set has
one such list only (`unique`), and their lengths add up to its size (`sum_lengths`).
-/
namespace Runs

def In (r : ℕ × ℕ) (j : ℕ) : Prop := r.1 ≤ j ∧ j < r.1 + r.2

/-- A non-empty range within `P` that cannot be extended on either side. -/
structure Maximal (P : ℕ → Prop) (r : ℕ × ℕ) : Prop where
  pos    : 0 < r.2
  within : ∀ j, In r j → P j
  left   : ∀ j, j + 1 = r.1 → ¬ P j
  right  : ¬ P (r.1 + r.2)

/-- The first end of two overlapping runs is the end of both. -/
theorem Maximal.end_le {P : ℕ → Prop} {r s : ℕ × ℕ} (hr : Maximal P r) (hs : Maximal P s) {j : ℕ} (hj : In r j)
    (hj' : In s j) : s.1 + s.2 ≤ r.1 + r.2 := by
  by_contra hlt
  exact hr.right (hs.within _ ⟨by unfold In at hj hj'; omega, by omega⟩)

theorem Maximal.start_le {P : ℕ → Prop} {r s : ℕ × ℕ} (hr : Maximal P r) (hs : Maximal P s) {j : ℕ} (hj : In r j)
    (hj' : In s j) : r.1 ≤ s.1 := by
  unfold In at hj hj'
  by_contra hlt
  exact hr.left (r.1 - 1) (by omega) (hs.within _ ⟨by omega, by omega⟩)

/-- **Maximal runs that share a number are one run.** -/
theorem Maximal.eq {P : ℕ → Prop} {r s : ℕ × ℕ} (hr : Maximal P r) (hs : Maximal P s) {j : ℕ} (hj : In r j)
    (hj' : In s j) : r = s := by
  have h1 := hr.end_le hs hj hj'
  have h2 := hs.end_le hr hj' hj
  have h3 := hr.start_le hs hj hj'
  have h4 := hs.start_le hr hj' hj
  exact Prod.ext (by omega) (by omega)

/-- The list of the runs of `P`, in order. -/
structure IsRuns (P : ℕ → Prop) (l : List (ℕ × ℕ)) : Prop where
  pos   : ∀ r ∈ l, 0 < r.2
  apart : l.Pairwise (fun r s => r.1 + r.2 < s.1)
  cover : ∀ j, (∃ r ∈ l, In r j) ↔ P j

namespace IsRuns

variable {P : ℕ → Prop} {l l' : List (ℕ × ℕ)}

theorem eq_or_apart (h : IsRuns P l) {r s : ℕ × ℕ} (hr : r ∈ l) (hs : s ∈ l) :
    r = s ∨ r.1 + r.2 < s.1 ∨ s.1 + s.2 < r.1 := by
  by_contra hne
  rw [not_or] at hne
  let Apart (x y : ℕ × ℕ) : Prop := x.1 + x.2 < y.1 ∨ y.1 + y.2 < x.1
  have : Std.Symm Apart := ⟨fun _ _ h => h.symm⟩
  have happart : l.Pairwise Apart := h.apart.imp .inl
  exact hne.2 (happart.forall hr hs hne.1)

theorem disjoint (h : IsRuns P l) {r s : ℕ × ℕ} (hr : r ∈ l) (hs : s ∈ l) {j : ℕ} (hj : In r j) (hj' : In s j) :
    r = s := by
  obtain ⟨h1, h2⟩ := hj
  obtain ⟨h3, h4⟩ := hj'
  rcases h.eq_or_apart hr hs with he | he | he
  · exact he
  · omega
  · omega

theorem nodup (h : IsRuns P l) : l.Nodup := h.apart.imp (fun {r s} hlt he => by subst he; omega)

theorem maximal_of_mem (h : IsRuns P l) {r : ℕ × ℕ} (hr : r ∈ l) : Maximal P r where
  pos := h.pos r hr
  within j hj := (h.cover j).1 ⟨r, hr, hj⟩
  left j hj hP := by
    obtain ⟨s, hs, hsj⟩ := (h.cover j).2 hP
    have hpos := h.pos r hr
    unfold In at hsj
    rcases h.eq_or_apart hr hs with rfl | he | he <;> omega
  right hP := by
    obtain ⟨s, hs, hsj⟩ := (h.cover _).2 hP
    have hpos := h.pos r hr
    unfold In at hsj
    rcases h.eq_or_apart hr hs with rfl | he | he <;> omega


/-- **The list holds every maximal run** and nothing else. -/
theorem mem_iff (h : IsRuns P l) (r : ℕ × ℕ) : r ∈ l ↔ Maximal P r := by
  constructor
  · exact h.maximal_of_mem
  · intro hr
    have hfirst : In r r.1 := ⟨Nat.le_refl _, Nat.lt_add_of_pos_right hr.pos⟩
    obtain ⟨s, hs, hsj⟩ := (h.cover r.1).2 (hr.within _ hfirst)
    rwa [hr.eq (h.maximal_of_mem hs) hfirst hsj]

/-- **A set has one list of runs.** -/
theorem unique (h : IsRuns P l) (h' : IsRuns P l') : l = l' := by
  have hirrefl : Std.Irrefl (fun r s : ℕ × ℕ => 0 < r.2 ∧ r.1 + r.2 < s.1) := ⟨fun r hr => by omega⟩
  have hanti : Std.Antisymm (fun r s : ℕ × ℕ => 0 < r.2 ∧ r.1 + r.2 < s.1) := ⟨fun r s hr hs => by omega⟩
  have hstrict : ∀ {l}, IsRuns P l → l.Pairwise (fun r s => 0 < r.2 ∧ r.1 + r.2 < s.1) :=
    fun h => h.apart.imp_of_mem (fun hr _ hlt => ⟨h.pos _ hr, hlt⟩)
  exact (hstrict h).eq_of_mem_iff (hstrict h') (fun r => by rw [h.mem_iff, h'.mem_iff])

theorem eq_nil_iff (h : IsRuns P l) : l = [] ↔ ∀ j, ¬ P j := by
  constructor
  · rintro rfl j hj
    obtain ⟨r, hr, -⟩ := (h.cover j).2 hj
    cases hr
  · intro hP
    rw [List.eq_nil_iff_forall_not_mem]
    intro r hr
    exact hP r.1 ((h.cover _).1 ⟨r, hr, Nat.le_refl _, Nat.lt_add_of_pos_right (h.pos r hr)⟩)

end IsRuns

/-! ## The size of the set -/

/-- The numbers of ranges that are apart, counted below a bound of all of them. -/
theorem sum_lengths_of_apart {n : ℕ} : ∀ (l : List (ℕ × ℕ)) [DecidablePred fun j => ∃ r ∈ l, In r j],
    l.Pairwise (fun r s => r.1 + r.2 < s.1) → (∀ r ∈ l, r.1 + r.2 ≤ n) →
    (l.map Prod.snd).sum = ((Finset.range n).filter (fun j => ∃ r ∈ l, In r j)).card
  | [], _, _, _ => by simp
  | r :: l, _, hp, hn => by
    classical
    rw [List.pairwise_cons] at hp
    have ih := sum_lengths_of_apart l hp.2 (fun s hs => hn s (List.mem_cons_of_mem _ hs))
    have hsplit : (Finset.range n).filter (fun j => ∃ s ∈ r :: l, In s j) =
        Finset.Ico r.1 (r.1 + r.2) ∪ (Finset.range n).filter (fun j => ∃ s ∈ l, In s j) := by
      ext j
      have hle := hn r List.mem_cons_self
      simp only [Finset.mem_filter, Finset.mem_range, List.mem_cons, exists_eq_or_imp, Finset.mem_union, Finset.mem_Ico]
      unfold In at *
      constructor
      · rintro ⟨hj, hr | hs⟩
        · exact .inl hr
        · exact .inr ⟨hj, hs⟩
      · rintro (hr | ⟨hj, hs⟩)
        · exact ⟨by omega, .inl hr⟩
        · exact ⟨hj, .inr hs⟩
    have hdisj : Disjoint (Finset.Ico r.1 (r.1 + r.2)) ((Finset.range n).filter (fun j => ∃ s ∈ l, In s j)) := by
      rw [Finset.disjoint_left]
      intro j hj hj'
      obtain ⟨-, s, hs, hsj, -⟩ := Finset.mem_filter.1 hj'
      have hlt := hp.1 s hs
      rw [Finset.mem_Ico] at hj
      omega
    rw [hsplit, Finset.card_union_of_disjoint hdisj, Nat.card_Ico, Nat.add_sub_cancel_left, ← ih, List.map_cons,
      List.sum_cons]

/-- **The lengths of the runs add up to the size of the set.** -/
theorem IsRuns.sum_lengths {P : ℕ → Prop} [DecidablePred P] {l : List (ℕ × ℕ)} {n : ℕ} (h : IsRuns P l)
    (hn : ∀ j, P j → j < n) : (l.map Prod.snd).sum = ((Finset.range n).filter P).card := by
  classical
  have hle : ∀ r ∈ l, r.1 + r.2 ≤ n := fun r hr => by
    have hpos := h.pos r hr
    have := hn _ ((h.cover (r.1 + r.2 - 1)).1 ⟨r, hr, by omega, by omega⟩)
    omega
  rw [sum_lengths_of_apart l h.apart hle]
  congr 1
  exact Finset.filter_congr (fun j _ => h.cover j)

end Runs
