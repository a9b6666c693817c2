import Parachuter.Lib.Blob
/-!
# Reflected CRCs — the register of `w` bits, and what changes of the input it tells apart

`shift` is one step of the register, `step` takes a byte, `register` a byte string.  A shift is linear in exclusive or,
and with a polynomial whose top bit is set it loses nothing, so neither does a byte or any string of them
(`register_injective`).  A block of at most `w` bits acts on the register as one exclusive or before its shifts
(`register_eq_shifts`), so two different blocks leave it different, and whatever follows keeps it so
(`register_ne_of_window`).
-/
namespace Crc

open Blob (Bytes leBytes leNat)

variable {w : Nat} (poly : BitVec w)

def shift (c : BitVec w) : BitVec w := if c.getLsbD 0 then (c >>> 1) ^^^ poly else c >>> 1

def shifts : Nat → BitVec w → BitVec w
  | 0, c     => c
  | n + 1, c => shifts n (shift poly c)

def step (c : BitVec w) (b : UInt8) : BitVec w := shifts poly 8 (c ^^^ b.toBitVec.setWidth w)

def register (c : BitVec w) (bs : Bytes) : BitVec w := bs.foldl (step poly) c

variable {poly}

/-! ## The shift -/

theorem shift_eq (c : BitVec w) : shift poly c = (c >>> 1) ^^^ (if c.getLsbD 0 then poly else 0#w) := by
  unfold shift
  split
  · rfl
  · rw [BitVec.xor_zero]

theorem shift_xor (a b : BitVec w) : shift poly (a ^^^ b) = shift poly a ^^^ shift poly b := by
  have htap : ∀ x y : Bool, (if x ^^ y then poly else 0#w) = (if x then poly else 0#w) ^^^ (if y then poly else 0#w) := by
    intro x y
    cases x <;> cases y <;> simp
  rw [shift_eq, shift_eq, shift_eq, BitVec.ushiftRight_xor_distrib, BitVec.getLsbD_xor, htap]
  ac_rfl

/-- The top bit of a shifted register is the bit that was shifted out. -/
theorem top_shift (hpoly : poly.getLsbD (w - 1) = true) (c : BitVec w) : (shift poly c).getLsbD (w - 1) = c.getLsbD 0 := by
  have hw : 0 < w := by
    by_contra h0
    rw [BitVec.getLsbD_of_ge _ _ (by omega)] at hpoly
    cases hpoly
  have htop : (c >>> 1).getLsbD (w - 1) = false := by
    rw [BitVec.getLsbD_ushiftRight]
    exact BitVec.getLsbD_of_ge _ _ (by omega)
  rw [shift_eq, BitVec.getLsbD_xor, htop]
  cases c.getLsbD 0 <;> simp [hpoly]

/-- **A shift loses nothing**, if the polynomial has its top bit. -/
theorem shift_injective (hpoly : poly.getLsbD (w - 1) = true) : Function.Injective (shift poly) := by
  intro a b h
  have h0 : a.getLsbD 0 = b.getLsbD 0 := by rw [← top_shift hpoly a, h, top_shift hpoly b]
  rw [shift_eq, shift_eq, h0] at h
  have hrest : a >>> 1 = b >>> 1 := (BitVec.xor_left_inj _).1 h
  apply BitVec.eq_of_getLsbD_eq
  intro i _
  cases i with
  | zero => exact h0
  | succ i =>
    have hbit := congrArg (fun c => c.getLsbD i) hrest
    simpa [BitVec.getLsbD_ushiftRight, Nat.add_comm] using hbit

/-! ## Several shifts -/

theorem shifts_xor : ∀ (n : Nat) (a b : BitVec w), shifts poly n (a ^^^ b) = shifts poly n a ^^^ shifts poly n b
  | 0, _, _     => rfl
  | n + 1, a, b => by simp only [shifts, shift_xor, shifts_xor n]

theorem shifts_add : ∀ (m n : Nat) (c : BitVec w), shifts poly (m + n) c = shifts poly n (shifts poly m c)
  | 0, n, c     => by rw [Nat.zero_add]; rfl
  | m + 1, n, c => by rw [Nat.add_right_comm, shifts, shifts_add m n, shifts]

theorem shifts_injective (hpoly : poly.getLsbD (w - 1) = true) : ∀ n, Function.Injective (shifts poly n)
  | 0     => Function.injective_id
  | n + 1 => (shifts_injective hpoly n).comp (shift_injective hpoly)

/-- Clear bits are shifted out without a trace. -/
theorem shifts_of_low_clear : ∀ (n : Nat) (c : BitVec w), (∀ i, i < n → c.getLsbD i = false) → shifts poly n c = c >>> n
  | 0, c, _     => (BitVec.ushiftRight_zero c).symm
  | n + 1, c, h => by
    have hone : shift poly c = c >>> 1 := by rw [shift, h 0 (Nat.succ_pos n), if_neg Bool.false_ne_true]
    have hrest : ∀ i, i < n → (c >>> 1).getLsbD i = false := fun i hi => by
      rw [BitVec.getLsbD_ushiftRight]
      exact h _ (by omega)
    rw [shifts, hone, shifts_of_low_clear n _ hrest, ← BitVec.shiftRight_add, Nat.add_comm]

/-- What is moved up by `n` bits, without loss, comes down by `n` shifts. -/
theorem shifts_shiftLeft {n k : Nat} (h : 2 ^ n * k < 2 ^ w) :
    shifts poly n (BitVec.ofNat w k <<< n) = BitVec.ofNat w k := by
  rw [shifts_of_low_clear n _ (fun i hi => by simp [hi])]
  have hk : k < 2 ^ w := Nat.lt_of_le_of_lt (Nat.le_mul_of_pos_left k (Nat.two_pow_pos n)) h
  apply BitVec.eq_of_toNat_eq
  rw [BitVec.toNat_ushiftRight, BitVec.toNat_shiftLeft, BitVec.toNat_ofNat, Nat.mod_eq_of_lt hk, Nat.shiftLeft_eq,
    Nat.mul_comm, Nat.mod_eq_of_lt h, Nat.shiftRight_eq_div_pow, Nat.mul_div_cancel_left _ (Nat.two_pow_pos n)]

/-! ## Byte strings -/

theorem register_append (c : BitVec w) (xs ys : Bytes) : register poly c (xs ++ ys) = register poly (register poly c xs) ys :=
  List.foldl_append

/-- **No byte string merges two registers.** -/
theorem register_injective (hpoly : poly.getLsbD (w - 1) = true) :
    ∀ (bs : Bytes), Function.Injective (fun c => register poly c bs)
  | []      => Function.injective_id
  | b :: bs => fun a a' h => by
    have hstep := register_injective hpoly bs h
    exact (BitVec.xor_left_inj _).1 (shifts_injective hpoly 8 hstep)

theorem ofNat_leNat_cons (b : UInt8) (bs : Bytes) :
    BitVec.ofNat w (leNat (b :: bs)) = b.toBitVec.setWidth w ^^^ (BitVec.ofNat w (leNat bs) <<< 8) := by
  apply BitVec.eq_of_getLsbD_eq
  intro i hi
  have hb : b.toNat < 2 ^ 8 := b.toNat_lt
  have hbit : (leNat (b :: bs)).testBit i = if i < 8 then b.toNat.testBit i else (leNat bs).testBit (i - 8) := by
    rw [leNat, Nat.add_comm]
    exact Nat.testBit_two_pow_mul_add _ hb i
  have hlow : (b.toBitVec.setWidth w).getLsbD i = b.toNat.testBit i := by
    rw [BitVec.getLsbD_setWidth, decide_eq_true hi]
    rfl
  rw [BitVec.getLsbD_xor, BitVec.getLsbD_ofNat, hbit, hlow, BitVec.getLsbD_shiftLeft, decide_eq_true hi]
  by_cases h8 : i < 8
  · simp [h8]
  · have hhigh : b.toNat.testBit i = false :=
      Nat.testBit_lt_two_pow (Nat.lt_of_lt_of_le hb (Nat.pow_le_pow_right (by decide) (Nat.not_lt.1 h8)))
    rw [BitVec.getLsbD_ofNat, decide_eq_true (Nat.lt_of_le_of_lt (Nat.sub_le i 8) hi)]
    simp [h8, hhigh]

/-- **A block that fits the register** is one exclusive or, and then the shifts. -/
theorem register_eq_shifts : ∀ (bs : Bytes) (c : BitVec w), 8 * bs.length ≤ w →
    register poly c bs = shifts poly (8 * bs.length) (c ^^^ BitVec.ofNat w (leNat bs))
  | [], c, _      => (BitVec.xor_zero).symm
  | b :: bs, c, h => by
    rw [List.length_cons] at h
    have hfit : 2 ^ 8 * leNat bs < 2 ^ w := by
      have hlt := Blob.leNat_lt bs
      have hpow : 2 ^ 8 * 256 ^ bs.length ≤ 2 ^ w := by
        rw [show (256 : Nat) = 2 ^ 8 by rfl, ← Nat.pow_mul, ← Nat.pow_add]
        exact Nat.pow_le_pow_right (by decide) (by omega)
      exact Nat.lt_of_lt_of_le (Nat.mul_lt_mul_of_pos_left hlt (by decide)) hpow
    calc register poly c (b :: bs)
        = shifts poly (8 * bs.length) (step poly c b ^^^ BitVec.ofNat w (leNat bs)) :=
          register_eq_shifts bs (step poly c b) (by omega)
      _ = shifts poly (8 * bs.length)
            (shifts poly 8 (c ^^^ b.toBitVec.setWidth w) ^^^ shifts poly 8 (BitVec.ofNat w (leNat bs) <<< 8)) := by
          rw [shifts_shiftLeft hfit]
          rfl
      _ = shifts poly (8 + 8 * bs.length) (c ^^^ BitVec.ofNat w (leNat (b :: bs))) := by
          rw [← shifts_xor, ← shifts_add, BitVec.xor_assoc, ← ofNat_leNat_cons]
      _ = shifts poly (8 * (b :: bs).length) (c ^^^ BitVec.ofNat w (leNat (b :: bs))) := by
          rw [List.length_cons, Nat.mul_succ, Nat.add_comm]

/-- **Two blocks that fit the register** and are of one length are told apart. -/
theorem eq_of_register_eq (hpoly : poly.getLsbD (w - 1) = true) {c : BitVec w} {xs ys : Bytes} (hlen : xs.length = ys.length)
    (hfit : 8 * xs.length ≤ w) (h : register poly c xs = register poly c ys) : xs = ys := by
  rw [register_eq_shifts xs c hfit, register_eq_shifts ys c (by rwa [← hlen]), hlen] at h
  have hword := (BitVec.xor_right_inj _).1 (shifts_injective hpoly _ h)
  have hsmall : ∀ zs : Bytes, zs.length = xs.length → leNat zs < 2 ^ w := fun zs hz => by
    have hpow : 256 ^ zs.length ≤ 2 ^ w := by
      rw [show (256 : Nat) = 2 ^ 8 by rfl, ← Nat.pow_mul, hz]
      exact Nat.pow_le_pow_right (by decide) hfit
    exact Nat.lt_of_lt_of_le (Blob.leNat_lt zs) hpow
  have hnat := congrArg BitVec.toNat hword
  rw [BitVec.toNat_ofNat, BitVec.toNat_ofNat, Nat.mod_eq_of_lt (hsmall xs rfl), Nat.mod_eq_of_lt (hsmall ys hlen.symm)] at hnat
  rw [← Blob.leBytes_leNat xs, hnat, hlen, Blob.leBytes_leNat]

/-- **A change within a window of the register's width** is told, whatever stands before and after. -/
theorem register_ne_of_window (hpoly : poly.getLsbD (w - 1) = true) (c : BitVec w) {xs ys : Bytes} {i n : Nat}
    (hlen : xs.length = ys.length) (hfit : 8 * n ≤ w) (hne : xs ≠ ys)
    (hwin : ∀ k, xs[k]? ≠ ys[k]? → i ≤ k ∧ k < i + n) : register poly c xs ≠ register poly c ys := by
  intro h
  have hpre : xs.take i = ys.take i := by
    refine List.ext_getElem? (fun k => ?_)
    rw [List.getElem?_take, List.getElem?_take]
    split
    · by_contra hk
      have := hwin k hk
      omega
    · rfl
  have hsuf : xs.drop (i + n) = ys.drop (i + n) := by
    refine List.ext_getElem? (fun k => ?_)
    rw [List.getElem?_drop, List.getElem?_drop]
    by_contra hk
    have := hwin _ hk
    omega
  have hcut : ∀ zs : Bytes, zs = zs.take i ++ ((zs.drop i).take n ++ zs.drop (i + n)) := fun zs => by
    rw [← List.drop_drop, List.take_append_drop, List.take_append_drop]
  rw [hcut xs, hcut ys, register_append, register_append, register_append, register_append, hpre, hsuf] at h
  have hblock := eq_of_register_eq hpoly (by simp [hlen])
    (Nat.le_trans (Nat.mul_le_mul_left 8 (List.length_take_le _ _)) hfit) (register_injective hpoly _ h)
  exact hne (by rw [hcut xs, hcut ys, hpre, hsuf, hblock])

end Crc
