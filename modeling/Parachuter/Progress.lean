import Mathlib.Data.Finset.Insert
import Mathlib.Data.Finset.Range
import Parachuter.Reassembler
/-!
# Progress — what an assembly is for, without bytes

The abstract model of one file's assembly on the ground: which of its `n` chunks are there and whether its name is.
`step n` is what one delivery does to it and what the ground answers.  The only rule that looks at the order of
deliveries is `deferred`: the last of several chunks is turned away until another one has fixed the payload size.
`mem_got_run` and `named_run` say what a whole sequence of deliveries leaves, `complete_step` when the answer is
`complete`.
-/
namespace Parachuter

/-- What is there of one file. -/
structure Progress where
  got   : Finset Nat
  named : Bool
  deriving DecidableEq

/-- One delivery: a chunk by its id, or the name. -/
inductive Delivery
  | chunk (i : Nat)
  | name
  deriving DecidableEq, Repr

namespace Progress

def empty : Progress := ⟨∅, false⟩

/-- Every chunk and the name are there. -/
def full (n : Nat) (a : Progress) : Bool := a.named && decide (Finset.range n ⊆ a.got)

def answer (n : Nat) (a : Progress) : IngestOutcome := if a.full n then .complete else .accepted

/-- The last of several chunks, before any other. -/
def deferred (n i : Nat) (a : Progress) : Bool := decide (1 < n ∧ i = n - 1) && decide (a.got = ∅)

/-- One delivery, from nothing (`none`) or from an assembly in holding. -/
def step (n : Nat) (a : Option Progress) : Delivery → IngestOutcome × Option Progress
  | .chunk i =>
    let b := a.getD empty
    if deferred n i b then (.mismatched, a)
    else if i ∈ b.got then (.duplicate, a)
    else
      let b' : Progress := { b with got := insert i b.got }
      (b'.answer n, some b')
  | .name =>
    let b' : Progress := { a.getD empty with named := true }
    (b'.answer n, some b')

def run (n : Nat) (a : Option Progress) (es : List Delivery) : Option Progress :=
  es.foldl (fun a e => (step n a e).2) a

theorem step_deferred {n i : Nat} {a : Option Progress} (h : deferred n i (a.getD empty) = true) :
    step n a (.chunk i) = (.mismatched, a) := by
  simp only [step, h, if_true]

theorem step_chunk {n i : Nat} {a : Option Progress} (h : deferred n i (a.getD empty) = false) :
    step n a (.chunk i) =
      (if i ∈ (a.getD empty).got then .duplicate else answer n { a.getD empty with got := insert i (a.getD empty).got },
        some { a.getD empty with got := insert i (a.getD empty).got }) := by
  simp only [step, h, Bool.false_eq_true, if_false]
  split
  · rename_i hi
    cases a with
    | none => simp [empty] at hi
    | some a =>
      rw [Option.getD_some] at hi ⊢
      rw [Finset.insert_eq_of_mem hi]
  · rfl

theorem step_some (n : Nat) (a : Progress) (e : Delivery) : ∃ b, (step n (some a) e).2 = some b := by
  cases e with
  | name => exact ⟨_, rfl⟩
  | chunk i =>
    unfold step
    dsimp only
    split
    · exact ⟨a, rfl⟩
    · split
      · exact ⟨a, rfl⟩
      · exact ⟨_, rfl⟩

/-! ## What a sequence of deliveries leaves -/

/-- The chunks among the deliveries, in order. -/
def chunks : List Delivery → List Nat
  | []             => []
  | .chunk i :: es => i :: chunks es
  | .name :: es    => chunks es

/-- All deliveries of chunk `i` came before the first delivery of another chunk. -/
def Leads (i : Nat) (ids : List Nat) : Prop := ∀ pre post, ids = pre ++ i :: post → ∀ j ∈ pre, j = i

/-- The chunks that count: all that were delivered, but for the last of several while it leads. -/
def Counts (n : Nat) (ids : List Nat) (i : Nat) : Prop := i ∈ ids ∧ ¬ (1 < n ∧ i = n - 1 ∧ Leads (n - 1) ids)

theorem chunks_append : ∀ (es fs : List Delivery), chunks (es ++ fs) = chunks es ++ chunks fs
  | [], _              => rfl
  | .chunk i :: es, fs => by simp only [List.cons_append, chunks, chunks_append es fs]
  | .name :: es, fs    => by simp only [List.cons_append, chunks, chunks_append es fs]

theorem chunks_map : ∀ ids : List Nat, chunks (ids.map .chunk) = ids
  | []       => rfl
  | i :: ids => by rw [List.map_cons, chunks, chunks_map ids]

theorem mem_chunks {i : Nat} : ∀ {es : List Delivery}, i ∈ chunks es ↔ Delivery.chunk i ∈ es
  | []             => by simp [chunks]
  | .chunk j :: es => by simp [chunks, @mem_chunks i es]
  | .name :: es    => by simp [chunks, @mem_chunks i es]

theorem run_append (n : Nat) (a : Option Progress) (es fs : List Delivery) :
    run n a (es ++ fs) = run n (run n a es) fs := by
  unfold run; rw [List.foldl_append]

theorem leads_concat_ne {i x : Nat} {ids : List Nat} (hx : x ≠ i) : Leads i (ids ++ [x]) ↔ Leads i ids := by
  constructor
  · intro h pre post hs
    exact h pre (post ++ [x]) (by rw [hs]; simp)
  · intro h pre post hs j hj
    rcases List.eq_nil_or_concat post with rfl | ⟨post', y, rfl⟩
    · -- the split is at the new element, which is not `i`
      have := (List.append_inj' hs rfl).2
      simp only [List.cons.injEq, and_true] at this
      exact absurd this hx
    · have hs' : ids ++ [x] = (pre ++ i :: post') ++ [y] := by rw [hs]; simp
      exact h pre post' (List.append_inj' hs' rfl).1 j hj

theorem leads_concat_self {i : Nat} {ids : List Nat} : Leads i (ids ++ [i]) ↔ ∀ j ∈ ids, j = i := by
  constructor
  · intro h
    exact h ids [] rfl
  · intro h pre post hs j hj
    have hm : j ∈ ids ++ [i] := by rw [hs]; exact List.mem_append_left _ hj
    rcases List.mem_append.1 hm with hm | hm
    · exact h j hm
    · exact List.mem_singleton.1 hm

/-- **Nothing counts** exactly while every delivered chunk is the deferred one. -/
theorem counts_empty (n : Nat) (ids : List Nat) : (∀ i, ¬ Counts n ids i) ↔ ∀ j ∈ ids, 1 < n ∧ j = n - 1 := by
  constructor
  · intro h j hj
    have := h j
    unfold Counts at this
    simp only [hj, true_and, not_not] at this
    exact ⟨this.1, this.2.1⟩
  · rintro h i ⟨hi, hni⟩
    refine hni ⟨(h i hi).1, (h i hi).2, fun pre post hs j hj => ?_⟩
    exact (h j (by rw [hs]; exact List.mem_append_left _ hj)).2

/-- **What counts after one more chunk**: the same, and the new one unless it is the last of several and nothing
counted before. -/
theorem counts_concat (n x : Nat) (ids : List Nat) (i : Nat) : Counts n (ids ++ [x]) i ↔
    Counts n ids i ∨ (i = x ∧ ¬ (1 < n ∧ x = n - 1 ∧ ∀ k, ¬ Counts n ids k)) := by
  by_cases hx : 1 < n ∧ x = n - 1
  · obtain ⟨h1, rfl⟩ := hx
    have hlead : Leads (n - 1) (ids ++ [n - 1]) ↔ ∀ k, ¬ Counts n ids k := by
      rw [leads_concat_self, counts_empty]
      simp only [h1, true_and]
    by_cases hi : i = n - 1
    · subst hi
      have hl : Counts n (ids ++ [n - 1]) (n - 1) ↔ ¬ ∀ k, ¬ Counts n ids k := by
        rw [← hlead]; unfold Counts; simp [h1]
      rw [hl]
      constructor
      · intro he
        exact .inr ⟨rfl, fun h => he h.2.2⟩
      · rintro (h | ⟨-, h⟩)
        · exact fun he => he _ h
        · exact fun he => h ⟨h1, rfl, he⟩
    · unfold Counts
      simp [hi]
  · have hne : 1 < n → x ≠ n - 1 := fun h1 h2 => hx ⟨h1, h2⟩
    unfold Counts
    rw [List.mem_append, List.mem_singleton]
    by_cases h1 : 1 < n
    · rw [leads_concat_ne (hne h1)]
      have := hne h1
      constructor
      · rintro ⟨hi | rfl, hd⟩
        · exact .inl ⟨hi, hd⟩
        · exact .inr ⟨rfl, fun h => this h.2.1⟩
      · rintro (⟨hi, hd⟩ | ⟨rfl, -⟩)
        · exact ⟨.inl hi, hd⟩
        · exact ⟨.inr rfl, fun h => this h.2.1⟩
    · simp [h1]

theorem deferred_iff {n i : Nat} {a : Progress} : deferred n i a = true ↔ 1 < n ∧ i = n - 1 ∧ ∀ k, k ∉ a.got := by
  unfold deferred
  rw [Bool.and_eq_true, decide_eq_true_iff, decide_eq_true_iff, Finset.eq_empty_iff_forall_notMem, and_assoc]

theorem mem_got_step (n : Nat) (a : Option Progress) (e : Delivery) (i : Nat) :
    i ∈ (((step n a e).2).getD empty).got ↔ i ∈ (a.getD empty).got ∨
      (e = .chunk i ∧ ¬ (1 < n ∧ i = n - 1 ∧ ∀ k, k ∉ (a.getD empty).got)) := by
  cases e with
  | name => simp [step]
  | chunk x =>
    unfold step
    simp only [Delivery.chunk.injEq]
    by_cases hd : deferred n x (a.getD empty) = true
    · rw [if_pos hd]
      rw [deferred_iff] at hd
      constructor
      · exact .inl
      · rintro (h | ⟨rfl, hn⟩)
        · exact h
        · exact absurd hd hn
    · rw [if_neg hd]
      rw [deferred_iff] at hd
      by_cases hx : x ∈ (a.getD empty).got
      · rw [if_pos hx]
        constructor
        · exact .inl
        · rintro (h | ⟨rfl, -⟩)
          · exact h
          · exact hx
      · rw [if_neg hx, Option.getD_some, Finset.mem_insert]
        constructor
        · rintro (rfl | h)
          · exact .inr ⟨rfl, hd⟩
          · exact .inl h
        · rintro (h | ⟨rfl, -⟩)
          · exact .inr h
          · exact .inl rfl

/-- **The chunks there after a whole sequence are those that count in it.** -/
theorem mem_got_run (n : Nat) (es : List Delivery) (i : Nat) :
    i ∈ ((run n none es).getD empty).got ↔ Counts n (chunks es) i := by
  induction es using List.reverseRecOn generalizing i with
  | nil => simp [run, empty, Counts, chunks]
  | append_singleton es e ih =>
    rw [run_append, chunks_append]
    show i ∈ (((step n (run n none es) e).2).getD empty).got ↔ _
    rw [mem_got_step]
    simp only [ih]
    cases e with
    | name => simp [chunks]
    | chunk x =>
      rw [show chunks [.chunk x] = [x] from rfl, counts_concat]
      simp only [Delivery.chunk.injEq]
      constructor
      · rintro (h | ⟨rfl, h⟩)
        · exact .inl h
        · exact .inr ⟨rfl, h⟩
      · rintro (h | ⟨rfl, h⟩)
        · exact .inl h
        · exact .inr ⟨rfl, h⟩

theorem named_step (n : Nat) (a : Option Progress) (e : Delivery) :
    ((step n a e).2.getD empty).named = ((a.getD empty).named || decide (e = .name)) := by
  cases e with
  | name => simp [step]
  | chunk x =>
    unfold step
    simp only [reduceCtorEq, decide_false, Bool.or_false]
    split
    · rfl
    · split <;> rfl

/-- **The name is there exactly when it was delivered.** -/
theorem named_run (n : Nat) (es : List Delivery) :
    ((run n none es).getD empty).named = true ↔ Delivery.name ∈ es := by
  induction es using List.reverseRecOn with
  | nil => simp [run, empty]
  | append_singleton es e ih =>
    rw [run_append]
    show ((step n (run n none es) e).2.getD empty).named = true ↔ _
    rw [named_step, Bool.or_eq_true, ih, List.mem_append, List.mem_singleton, decide_eq_true_iff]
    exact or_congr_right eq_comm

/-- Nothing among the deliveries is turned away: there is a chunk already, or the first to come is not the last of
several. -/
def Flows (n : Nat) (a : Progress) (es : List Delivery) : Prop :=
  a.got ≠ ∅ ∨ ¬ 1 < n ∨ ∀ i ids, chunks es = i :: ids → i ≠ n - 1

/-- **A sequence that flows adds all it delivers.** -/
theorem run_of_flows (n : Nat) : ∀ (es : List Delivery) {a : Progress}, Flows n a es → ∃ b, run n (some a) es = some b ∧
    (∀ i, i ∈ b.got ↔ i ∈ a.got ∨ i ∈ chunks es) ∧ (b.named = true ↔ a.named = true ∨ Delivery.name ∈ es)
  | [], a, _            => ⟨a, rfl, fun i => by simp [chunks], by simp⟩
  | .name :: es, a, h    => by
    obtain ⟨b, hb, hgot, hnamed⟩ := @run_of_flows n es { a with named := true } h
    refine ⟨b, hb, hgot, ?_⟩
    rw [hnamed]
    simp
  | .chunk x :: es, a, h => by
    have hdef : deferred n x ((some a).getD empty) = false := by
      rw [Bool.eq_false_iff, Ne, deferred_iff]
      rintro ⟨h1, hx, he⟩
      rcases h with h | h | h
      · exact h (Finset.eq_empty_iff_forall_notMem.2 he)
      · exact h h1
      · exact h x (chunks es) rfl hx
    obtain ⟨b, hb, hgot, hnamed⟩ := @run_of_flows n es { a with got := insert x a.got }
      (.inl (Finset.insert_ne_empty x a.got))
    have hrun : run n (some a) (.chunk x :: es) = run n (some { a with got := insert x a.got }) es := by
      unfold run
      rw [List.foldl_cons, step_chunk hdef]
      rfl
    refine ⟨b, hrun.trans hb, fun i => ?_, ?_⟩
    · rw [hgot, Finset.mem_insert, chunks, List.mem_cons]
      exact ⟨by rintro ((h | h) | h) <;> simp [h], by rintro (h | h | h) <;> simp [h]⟩
    · rw [hnamed]
      simp

/-! ## When the answer is `complete` -/

/-- **`complete` is the answer to the delivery that fills the assembly.** -/
theorem complete_step {n : Nat} {a : Option Progress} (e : Delivery) (ha : (a.getD empty).full n = false) :
    (step n a e).1 = .complete ↔ ((step n a e).2.getD empty).full n = true := by
  cases e with
  | name =>
    simp only [step, answer, Option.getD_some]
    split <;> simp_all
  | chunk x =>
    unfold step
    simp only
    split
    · simp [ha]
    · split
      · simp [ha]
      · simp only [answer, Option.getD_some]
        split <;> simp_all

end Progress

end Parachuter
