import Mathlib.Data.List.Basic
/-!
# Text by characters: decimal numbers, lines, blanks

`digits` and `showInt` print numbers in decimal, `parseUnsigned` and `parseSigned` read them with an optional sign, as
most languages' standard libraries do.  `lines` splits a text at line feeds, with or without a carriage return before
them; the end of the last line may be left out.
-/
namespace Strings

/-! ## Decimal numbers -/

def digits (n : Nat) : List Char := Nat.toDigits 10 n

def showInt : Int → List Char
  | .ofNat n   => digits n
  | .negSucc n => '-' :: digits (n + 1)

/-- One digit at least, and nothing else. -/
def parseDigits (s : List Char) : Option Nat :=
  if s ≠ [] ∧ s.all Char.isDigit = true then some (Nat.ofDigitChars 10 s 0) else none

def parseUnsigned : List Char → Option Nat
  | '+' :: s => parseDigits s
  | s        => parseDigits s

def parseSigned : List Char → Option Int
  | '-' :: s => (parseDigits s).map (fun n => -(n : Int))
  | '+' :: s => (parseDigits s).map Int.ofNat
  | s        => (parseDigits s).map Int.ofNat

theorem isDigit_of_mem_digits {n : Nat} {c : Char} (h : c ∈ digits n) : c.isDigit = true :=
  Nat.isDigit_of_mem_toDigits (by decide) (by decide) h

theorem mem_showInt {i : Int} {c : Char} (h : c ∈ showInt i) : c = '-' ∨ c.isDigit = true := by
  cases i with
  | ofNat n => exact .inr (isDigit_of_mem_digits h)
  | negSucc n => exact (List.mem_cons.1 h).imp id isDigit_of_mem_digits

theorem digits_ne_nil (n : Nat) : digits n ≠ [] := Nat.toDigits_ne_nil

theorem parseDigits_digits (n : Nat) : parseDigits (digits n) = some n := by
  unfold parseDigits
  rw [if_pos ⟨digits_ne_nil n, List.all_eq_true.2 (fun _ => isDigit_of_mem_digits)⟩]
  exact congrArg some (Nat.ofDigitChars_toDigits (by decide) (by decide))

theorem exists_digits_cons (n : Nat) : ∃ c s, digits n = c :: s ∧ c.isDigit = true := by
  obtain ⟨c, s, h⟩ := List.exists_cons_of_ne_nil (digits_ne_nil n)
  exact ⟨c, s, h, isDigit_of_mem_digits (by rw [h]; exact List.mem_cons_self)⟩

theorem parseUnsigned_digits (n : Nat) : parseUnsigned (digits n) = some n := by
  obtain ⟨c, s, h, hc⟩ := exists_digits_cons n
  rw [← parseDigits_digits n, h]
  unfold parseUnsigned
  split
  · rename_i s' heq
    cases heq
    exact absurd hc (by decide)
  · rfl

theorem parseSigned_showInt (i : Int) : parseSigned (showInt i) = some i := by
  cases i with
  | negSucc n =>
    rw [showInt, parseSigned, parseDigits_digits]
    rfl
  | ofNat n =>
    obtain ⟨c, s, h, hc⟩ := exists_digits_cons n
    have hvalue : (parseDigits (c :: s)).map Int.ofNat = some (.ofNat n) := by
      rw [← h, parseDigits_digits]
      rfl
    rw [← hvalue, showInt, h]
    unfold parseSigned
    split
    · rename_i s' heq
      cases heq
      exact absurd hc (by decide)
    · rename_i s' heq
      cases heq
      exact absurd hc (by decide)
    · rfl

/-! ## Lines -/

/-- A line without the carriage return before its line feed. -/
def stripCr (line : List Char) : List Char := if line.getLast? = some '\r' then line.dropLast else line

def lines.go : List Char → List Char → List (List Char)
  | [], cur        => if cur = [] then [] else [cur]
  | c :: text, cur => if c = '\n' then stripCr cur :: lines.go text [] else lines.go text (cur ++ [c])

def lines (text : List Char) : List (List Char) := lines.go text []

theorem lines.go_line {line : List Char} (h : '\n' ∉ line) (rest : List Char) : ∀ cur : List Char,
    lines.go (line ++ '\n' :: rest) cur = stripCr (cur ++ line) :: lines rest := by
  induction line with
  | nil =>
    intro cur
    rw [List.nil_append, lines.go, if_pos rfl, List.append_nil]
    rfl
  | cons c line ih =>
    intro cur
    rw [List.mem_cons, not_or] at h
    rw [List.cons_append, lines.go, if_neg (Ne.symm h.1), ih h.2, List.append_assoc, List.singleton_append]

/-- **The first line of a text** is what stands before its first line feed. -/
theorem lines_line {line : List Char} (h : '\n' ∉ line) (rest : List Char) :
    lines (line ++ '\n' :: rest) = stripCr line :: lines rest := lines.go_line h rest []

/-- A line whose end, from some character on, has no carriage return. -/
theorem stripCr_append_cons {line tail : List Char} {c : Char} (h : '\r' ∉ c :: tail) :
    stripCr (line ++ c :: tail) = line ++ c :: tail := by
  unfold stripCr
  rw [if_neg]
  intro hlast
  rw [List.getLast?_append_of_ne_nil _ (List.cons_ne_nil c tail)] at hlast
  exact h (List.mem_of_getLast? hlast)

/-- Lines each ended by a line feed, none of them with one in it or with a carriage return at its end. -/
theorem lines_flatMap (rest : List Char) : ∀ {ls : List (List Char)}, (∀ l ∈ ls, '\n' ∉ l ∧ stripCr l = l) →
    lines (ls.flatMap (· ++ ['\n']) ++ rest) = ls ++ lines rest
  | [], _      => rfl
  | l :: ls, h => by
    obtain ⟨hl, hcr⟩ := h l List.mem_cons_self
    rw [List.flatMap_cons, List.append_assoc, List.append_assoc, List.singleton_append, lines_line hl, hcr,
      lines_flatMap rest (fun l' h' => h l' (List.mem_cons_of_mem _ h')), List.cons_append]

/-! ## Blanks -/

/-- Unicode's `White_Space`. -/
def isWhitespace (c : Char) : Bool :=
  let n := c.toNat
  (decide (0x9 ≤ n) && decide (n ≤ 0xD)) || n == 0x20 || n == 0x85 || n == 0xA0 || n == 0x1680 ||
    (decide (0x2000 ≤ n) && decide (n ≤ 0x200A)) || n == 0x2028 || n == 0x2029 || n == 0x202F || n == 0x205F || n == 0x3000

/-- Nothing is left of it once trimmed. -/
def isBlank (s : List Char) : Bool := s.all isWhitespace

theorem not_isBlank_cons {c : Char} (h : isWhitespace c = false) (s : List Char) : isBlank (c :: s) = false := by
  unfold isBlank
  rw [List.all_cons, h, Bool.false_and]

theorem isWhitespace_of_isDigit {c : Char} (h : c.isDigit = true) : isWhitespace c = false := by
  have hlo : 48 ≤ c.toNat := by
    rw [Char.isDigit, Bool.and_eq_true, decide_eq_true_iff] at h
    exact h.1
  have hhi : c.toNat ≤ 57 := by
    rw [Char.isDigit, Bool.and_eq_true, decide_eq_true_iff, decide_eq_true_iff] at h
    exact h.2
  unfold isWhitespace
  simp only [Bool.or_eq_false_iff, Bool.and_eq_false_iff, decide_eq_false_iff_not, beq_eq_false_iff_ne]
  omega

theorem not_isBlank_showInt (i : Int) (s : List Char) : isBlank (showInt i ++ s) = false := by
  cases i with
  | ofNat n =>
    obtain ⟨c, t, h, hc⟩ := exists_digits_cons n
    rw [showInt, h]
    exact not_isBlank_cons (isWhitespace_of_isDigit hc) _
  | negSucc n =>
    rw [showInt]
    exact not_isBlank_cons (by decide) _

end Strings
