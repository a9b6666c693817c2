import Mathlib.Data.List.Basic
/-!
# A flat queue and its account

A queue is a list; blocks are put before it or after it, its head is taken, all of it is dropped.  The account follows
every element by the block it came in with: what of a block was taken, what is still pending and what was dropped make up
the block, in this order (`Account.Balanced`).  So an element is taken at most once, and a block's elements in its order.
-/
namespace FlatQueue

variable {α : Type}

inductive Event (α : Type)
  | push (front : Bool) (block : List α)
  | drop
  | pop
  | skip

/-- The event takes an element. -/
def Event.takes : Event α → Bool
  | .pop => true
  | _    => false

/-- What becomes of the list. -/
def step (l : List α) : Event α → List α
  | .push true block  => block ++ l
  | .push false block => l ++ block
  | .drop             => []
  | .pop              => l.tail
  | .skip             => l

/-- The same with every element under the number of its block. -/
structure Account (α : Type) where
  blocks  : List (List α)
  pending : List (Nat × α)
  taken   : List (Nat × α)
  dropped : List (Nat × α)

/-- The elements of block `k`. -/
def part (k : Nat) (l : List (Nat × α)) : List α := (l.filter (fun x => x.1 = k)).map Prod.snd

namespace Account

/-- The account of a list met as it is: its one block so far. -/
def start (l : List α) : Account α := ⟨[l], l.map (Prod.mk 0), [], []⟩

def step (s : Account α) : Event α → Account α
  | .push front block =>
    let new := block.map (Prod.mk s.blocks.length)
    { s with blocks := s.blocks ++ [block], pending := if front then new ++ s.pending else s.pending ++ new }
  | .drop => { s with pending := [], dropped := s.dropped ++ s.pending }
  | .pop  =>
    match s.pending with
    | []           => s
    | x :: pending => { s with pending := pending, taken := s.taken ++ [x] }
  | .skip => s

def run (s : Account α) (es : List (Event α)) : Account α := es.foldl step s

/-- Every block is what was taken of it, what is pending and what was dropped. -/
structure Balanced (s : Account α) : Prop where
  block : ∀ k b, s.blocks[k]? = some b → part k s.taken ++ (part k s.pending ++ part k s.dropped) = b
  whole : ∀ k, part k s.pending = [] ∨ part k s.dropped = []
  known : ∀ x, x ∈ s.taken ∨ x ∈ s.pending ∨ x ∈ s.dropped → x.1 < s.blocks.length

end Account

/-! ## Parts -/

@[simp] theorem part_nil (k : Nat) : part k ([] : List (Nat × α)) = [] := rfl

@[simp] theorem part_append (k : Nat) (l l' : List (Nat × α)) : part k (l ++ l') = part k l ++ part k l' := by
  unfold part
  rw [List.filter_append, List.map_append]

theorem part_cons (k : Nat) (x : Nat × α) (l : List (Nat × α)) :
    part k (x :: l) = if x.1 = k then x.2 :: part k l else part k l := by
  unfold part
  by_cases h : x.1 = k
  · rw [List.filter_cons_of_pos (by simpa using h), if_pos h, List.map_cons]
  · rw [List.filter_cons_of_neg (by simpa using h), if_neg h]

theorem part_numbered (k n : Nat) (b : List α) : part k (b.map (Prod.mk n)) = if n = k then b else [] := by
  induction b with
  | nil => simp
  | cons a b ih =>
    rw [List.map_cons, part_cons, ih]
    split
    · rfl
    · rfl

theorem part_eq_nil {k : Nat} {l : List (Nat × α)} (h : ∀ x ∈ l, x.1 ≠ k) : part k l = [] := by
  unfold part
  rw [List.filter_eq_nil_iff.2 (fun x hx => by simpa using h x hx), List.map_nil]

theorem mem_of_mem_part {k : Nat} {l : List (Nat × α)} {a : α} (h : a ∈ part k l) : (k, a) ∈ l := by
  obtain ⟨x, hx, rfl⟩ := List.mem_map.1 h
  obtain ⟨hmem, hk⟩ := List.mem_filter.1 hx
  rw [← of_decide_eq_true hk]
  exact hmem

namespace Account

variable {s : Account α}

/-- The account's list is the queue. -/
theorem pending_step (s : Account α) (e : Event α) :
    (s.step e).pending.map Prod.snd = FlatQueue.step (s.pending.map Prod.snd) e := by
  cases e with
  | push front block =>
    have hnew : (block.map (Prod.mk s.blocks.length)).map Prod.snd = block := by
      rw [List.map_map]
      exact List.map_id block
    cases front with
    | true => simp only [step, FlatQueue.step, if_true, List.map_append, hnew]
    | false => simp only [step, FlatQueue.step, Bool.false_eq_true, if_false, List.map_append, hnew]
  | drop => rfl
  | pop =>
    simp only [step, FlatQueue.step]
    split
    · rename_i h
      rw [h]
      rfl
    · rename_i x pending h
      rw [h]
      rfl
  | skip => rfl

theorem taken_step (s : Account α) (e : Event α) :
    (s.step e).taken = s.taken ++ if e.takes then s.pending.head?.toList else [] := by
  cases e with
  | pop =>
    simp only [step, Event.takes, if_true]
    split
    · rename_i h
      rw [h]
      exact (List.append_nil _).symm
    · rename_i x pending h
      rw [h]
      rfl
  | _ => exact (List.append_nil _).symm

theorem balanced_start (l : List α) : (start l).Balanced where
  block k b hb := by
    cases k with
    | zero =>
      simp only [start, List.getElem?_cons_zero, Option.some.injEq] at hb
      simp only [start, part_numbered, part_nil, List.nil_append, List.append_nil, if_true]
      exact hb
    | succ k => simp [start] at hb
  whole k := .inr rfl
  known x hx := by
    simp only [start, List.not_mem_nil, List.mem_map, false_or, or_false] at hx
    obtain ⟨a, -, rfl⟩ := hx
    exact Nat.zero_lt_one

/-- **Every step keeps the account.** -/
theorem Balanced.step (h : s.Balanced) (e : Event α) : (s.step e).Balanced := by
  cases e with
  | push front block =>
    -- the new block's number is on nothing yet
    have hnew : ∀ l : List (Nat × α), (∀ x ∈ l, x ∈ s.taken ∨ x ∈ s.pending ∨ x ∈ s.dropped) → part s.blocks.length l = [] :=
      fun l hl => part_eq_nil (fun x hx => Nat.ne_of_lt (h.known x (hl x hx)))
    have hpending : ∀ k, part k (s.step (.push front block)).pending =
        part k s.pending ++ (if s.blocks.length = k then block else []) := by
      intro k
      simp only [Account.step]
      by_cases hk : s.blocks.length = k
      · subst hk
        have h0 := hnew s.pending (fun x hx => .inr (.inl hx))
        cases front <;> simp [part_numbered, h0]
      · cases front <;> simp [part_numbered, hk]
    refine ⟨fun k b hb => ?_, fun k => ?_, fun x hx => ?_⟩
    · rw [hpending]
      simp only [Account.step] at hb ⊢
      by_cases hk : s.blocks.length = k
      · subst hk
        rw [List.getElem?_concat_length, Option.some.injEq] at hb
        rw [hnew s.taken (fun x hx => .inl hx), hnew s.pending (fun x hx => .inr (.inl hx)),
          hnew s.dropped (fun x hx => .inr (.inr hx)), if_pos rfl, hb]
        simp
      · rw [if_neg hk, List.append_nil]
        refine h.block k b ?_
        obtain ⟨hlt, -⟩ := List.getElem?_eq_some_iff.1 hb
        rw [List.length_append, List.length_singleton] at hlt
        rwa [List.getElem?_append_left (by omega)] at hb
    · rw [hpending]
      by_cases hk : s.blocks.length = k
      · subst hk
        exact .inr (hnew s.dropped (fun x hx => .inr (.inr hx)))
      · rw [if_neg hk, List.append_nil]
        exact h.whole k
    · simp only [Account.step, List.length_append, List.length_singleton] at hx ⊢
      have hold : x ∈ s.taken ∨ x ∈ s.pending ∨ x ∈ s.dropped → x.1 < s.blocks.length + 1 :=
        fun hx => Nat.lt_succ_of_lt (h.known x hx)
      rcases hx with hx | hx | hx
      · exact hold (.inl hx)
      · have hmem : x ∈ s.pending ∨ x ∈ block.map (Prod.mk s.blocks.length) := by
          cases front
          · simpa using hx
          · simpa [or_comm] using hx
        rcases hmem with hx | hx
        · exact hold (.inr (.inl hx))
        · obtain ⟨a, -, rfl⟩ := List.mem_map.1 hx
          exact Nat.lt_succ_self _
      · exact hold (.inr (.inr hx))
  | drop =>
    refine ⟨fun k b hb => ?_, fun k => .inl rfl, fun x hx => h.known x ?_⟩
    · rw [← h.block k b hb]
      simp only [Account.step, part_nil, part_append, List.nil_append]
      rcases h.whole k with h0 | h0
      · rw [h0, List.append_nil, List.nil_append]
      · rw [h0, List.append_nil, List.nil_append]
    · simp only [Account.step, List.not_mem_nil, List.mem_append, false_or] at hx
      rcases hx with hx | hx | hx
      · exact .inl hx
      · exact .inr (.inr hx)
      · exact .inr (.inl hx)
  | pop =>
    simp only [Account.step]
    split
    · exact h
    · rename_i x pending hp
      have hpart : ∀ k, part k s.pending = part k [x] ++ part k pending := by
        intro k
        rw [hp, ← part_append]
        rfl
      refine ⟨fun k b hb => ?_, fun k => ?_, fun y hy => h.known y ?_⟩
      · rw [← h.block k b hb, hpart]
        simp only [part_append, List.append_assoc]
      · rcases h.whole k with h0 | h0
        · rw [hpart, List.append_eq_nil_iff] at h0
          exact .inl h0.2
        · exact .inr h0
      · rw [hp]
        simp only [List.mem_append, List.mem_singleton] at hy
        rcases hy with (hy | rfl) | hy | hy
        · exact .inl hy
        · exact .inr (.inl List.mem_cons_self)
        · exact .inr (.inl (List.mem_cons_of_mem _ hy))
        · exact .inr (.inr hy)
  | skip => exact h

theorem Balanced.run : ∀ (es : List (Event α)) {s : Account α}, s.Balanced → (s.run es).Balanced
  | [], _, h      => h
  | e :: es, _, h => Balanced.run es (h.step e)

/-- **A block's first element is taken before any other of it.** -/
theorem Balanced.first (h : s.Balanced) {k : Nat} {a x : α} {b : List α} (hb : s.blocks[k]? = some (a :: b))
    {before after : List (Nat × α)} (ht : s.taken = before ++ (k, x) :: after) (hx : x ≠ a) : (k, a) ∈ before := by
  have hblock := h.block k (a :: b) hb
  rw [ht, part_append, part_cons, if_pos rfl] at hblock
  cases hbefore : part k before with
  | nil =>
    rw [hbefore] at hblock
    exact absurd (List.cons.inj hblock).1 hx
  | cons y ys =>
    rw [hbefore] at hblock
    refine mem_of_mem_part ?_
    rw [hbefore, ← (List.cons.inj hblock).1]
    exact List.mem_cons_self

end Account

end FlatQueue
