import Parachuter.Lib.Blob
import Mathlib.Data.Nat.Bitwise
/-!
# Bitmaps — a set of small numbers packed eight to a byte

Bit `i` is bit `i % 8` of byte `i / 8`.  `getBit_setBit` is the law of an update within the bitmap, and past its end an
update does nothing; `all_bits_byte` and `all_bits_masked` read "every bit below" off whole bytes, off `0xff` and off a mask
of low ones.
-/
namespace Bitmap

open Blob (Bytes)

/-- The byte with bit `k` alone. -/
def mask (k : Nat) : UInt8 := 1 <<< UInt8.ofNat k

def getBit (bm : Bytes) (i : Nat) : Bool := bm.getD (i / 8) 0 &&& mask (i % 8) != 0

def setBit (bm : Bytes) (i : Nat) : Bytes := bm.modify (i / 8) (· ||| mask (i % 8))

theorem toNat_mask {k : Nat} (hk : k < 8) : (mask k).toNat = 2 ^ k := by
  have h : ∀ k : Fin 8, (mask k).toNat = 2 ^ k.val := by decide
  exact h ⟨k, hk⟩

/-- **A masked byte is the bit of its number.** -/
theorem and_mask_ne_zero (b : UInt8) {k : Nat} (hk : k < 8) : (b &&& mask k != 0) = b.toNat.testBit k := by
  have h0 : (b &&& mask k != 0) = decide (b.toNat &&& 2 ^ k ≠ 0) := by
    rw [← toNat_mask hk, ← UInt8.toNat_and, bne, Bool.beq_eq_decide_eq, ← decide_not]
    congr 1
    rw [← UInt8.toNat_inj]
    rfl
  rw [h0, Nat.and_two_pow]
  cases b.toNat.testBit k <;> simp

theorem getBit_eq (bm : Bytes) (i : Nat) : getBit bm i = (bm.getD (i / 8) 0).toNat.testBit (i % 8) :=
  and_mask_ne_zero _ (Nat.mod_lt _ (by decide))

@[simp] theorem length_setBit (bm : Bytes) (i : Nat) : (setBit bm i).length = bm.length := by simp [setBit]

/-- **Setting a bit** within the bitmap sets that bit and no other. -/
theorem getBit_setBit {bm : Bytes} {i : Nat} (hi : i / 8 < bm.length) (j : Nat) :
    getBit (setBit bm i) j = (decide (j = i) || getBit bm j) := by
  have h8 : i % 8 < 8 := Nat.mod_lt _ (by decide)
  have hget : (setBit bm i).getD (j / 8) 0 =
      if i / 8 = j / 8 then bm.getD (j / 8) 0 ||| mask (i % 8) else bm.getD (j / 8) 0 := by
    rw [setBit, List.getD_eq_getElem?_getD, List.getElem?_modify, List.getD_eq_getElem?_getD]
    split
    · rename_i he
      rw [List.getElem?_eq_getElem (by omega)]; rfl
    · simp
  rw [getBit_eq, getBit_eq, hget]
  split
  · rename_i he
    rw [UInt8.toNat_or, Nat.testBit_or, toNat_mask h8, Nat.testBit_two_pow, Bool.or_comm]
    congr 1
    apply decide_eq_decide.2
    omega
  · rename_i he
    have hji : ¬ j = i := fun h => he (by rw [h])
    simp [hji]

/-- Setting a bit sets no other, within the bitmap or past its end. -/
theorem getBit_of_setBit {bm : Bytes} {i j : Nat} (h : getBit (setBit bm i) j = true) : j = i ∨ getBit bm j = true := by
  by_cases hi : i / 8 < bm.length
  · rwa [getBit_setBit hi, Bool.or_eq_true, decide_eq_true_iff] at h
  · have hsame : setBit bm i = bm := List.modify_eq_self (Nat.not_lt.1 hi)
    rw [hsame] at h
    exact .inr h

/-- **Setting a bit** clears none. -/
theorem getBit_setBit_of_getBit {bm : Bytes} {j : Nat} (h : getBit bm j = true) (i : Nat) : getBit (setBit bm i) j = true := by
  by_cases hi : i / 8 < bm.length
  · rw [getBit_setBit hi, h, Bool.or_true]
  · have hsame : setBit bm i = bm := List.modify_eq_self (Nat.not_lt.1 hi)
    rw [hsame, h]

/-! ## Whole bytes and masks -/

theorem eq_ff_iff (b : UInt8) : b = 0xff ↔ ∀ k, k < 8 → b.toNat.testBit k = true := by
  constructor
  · rintro rfl k hk
    have h : ∀ k : Fin 8, (0xff : UInt8).toNat.testBit k = true := by decide
    exact h ⟨k, hk⟩
  · intro h
    apply UInt8.toNat_inj.1
    apply Nat.eq_of_testBit_eq
    intro k
    by_cases hk : k < 8
    · rw [h k hk]
      have h' : ∀ k : Fin 8, (0xff : UInt8).toNat.testBit k = true := by decide
      exact (h' ⟨k, hk⟩).symm
    · have h2 : 2 ^ 8 ≤ 2 ^ k := Nat.pow_le_pow_right (by decide) (by omega)
      have hb := b.toNat_lt
      rw [Nat.testBit_lt_two_pow (by omega), Nat.testBit_lt_two_pow (by
        have : (0xff : UInt8).toNat < 2 ^ 8 := by decide
        omega)]

/-- **Every bit of the first `n` bytes** is set exactly when each of them is `0xff`. -/
theorem all_bits_byte (bm : Bytes) (n : Nat) (hn : n ≤ bm.length) :
    ((bm.take n).all (· == 0xff)) = true ↔ ∀ i, i < 8 * n → getBit bm i = true := by
  rw [List.all_eq_true]
  constructor
  · intro h i hi
    have hlt : i / 8 < n := by omega
    have hmem : bm.getD (i / 8) 0 ∈ bm.take n := by
      rw [List.getD_eq_getElem?_getD, List.getElem?_eq_getElem (by omega), Option.getD_some]
      exact List.mem_take_iff_getElem.2 ⟨i / 8, by omega, rfl⟩
    rw [getBit_eq, (eq_of_beq (h _ hmem) : _ = (0xff : UInt8))]
    exact (eq_ff_iff 0xff).1 rfl _ (Nat.mod_lt _ (by decide))
  · intro h b hb
    obtain ⟨k, hk, rfl⟩ := List.mem_take_iff_getElem.1 hb
    rw [beq_iff_eq, eq_ff_iff]
    intro j hj
    have := h (8 * k + j) (by omega)
    rw [getBit_eq, show (8 * k + j) / 8 = k by omega, show (8 * k + j) % 8 = j by omega,
      List.getD_eq_getElem?_getD, List.getElem?_eq_getElem (by omega), Option.getD_some] at this
    exact this

/-- **The low `l` bits of a byte** are set exactly when the byte masked with `l` ones is those ones. -/
theorem all_bits_masked (b : UInt8) {l : Nat} (hl : l < 8) :
    (b &&& (mask l - 1) == mask l - 1) = true ↔ ∀ k, k < l → b.toNat.testBit k = true := by
  have hm : (mask l - 1).toNat = 2 ^ l - 1 := by
    have h : ∀ l : Fin 8, (mask l - 1).toNat = 2 ^ l.val - 1 := by decide
    exact h ⟨l, hl⟩
  rw [beq_iff_eq, ← UInt8.toNat_inj, UInt8.toNat_and, hm, Nat.and_two_pow_sub_one_eq_mod]
  constructor
  · intro h k hk
    have := congrArg (fun n => n.testBit k) h
    simpa [Nat.testBit_mod_two_pow, Nat.testBit_two_pow_sub_one, hk] using this
  · intro h
    apply Nat.eq_of_testBit_eq
    intro k
    rw [Nat.testBit_mod_two_pow, Nat.testBit_two_pow_sub_one]
    by_cases hk : k < l
    · simp [hk, h k hk]
    · simp [hk]

end Bitmap
