import Parachuter.Lib.Bitmap
import Parachuter.Lib.Crc
import Parachuter.Proto
/-!
# Corruption of a datagram (`Packet::decode`, `docs/DESIGN.md`)

`crc32` is the reflected CRC of `Lib/Crc`, so a change within four bytes of what it is taken of changes it.  The checksum
field is cleared before the sum is taken: a change within the field leaves the sum and changes what it is compared with,
one outside leaves the field and changes the sum.  So two datagrams that are both accepted do not differ within four bytes
on one side of the field's bounds (`eq_of_accepted`).
-/
namespace Parachuter

open Blob (Bytes leBytes leNat)

/-! ## The checksum -/

def crcPoly : BitVec 32 := 0xEDB88320#32

def crcShift (c : UInt32) : UInt32 := if c &&& 1 = 1 then (c >>> 1) ^^^ 0xEDB88320 else c >>> 1

def crcByte (c : UInt32) (b : UInt8) : UInt32 :=
  crcShift (crcShift (crcShift (crcShift (crcShift (crcShift (crcShift (crcShift (c ^^^ b.toUInt32))))))))

theorem crc32_eq (buf : Bytes) : crc32 buf = buf.foldl crcByte 0xFFFFFFFF ^^^ 0xFFFFFFFF := rfl

theorem and_one_eq_one_iff (c : UInt32) : c &&& 1 = 1 ↔ c.toBitVec.getLsbD 0 = true := by
  have hand : (c &&& 1).toNat = c.toNat % 2 := by rw [UInt32.toNat_and]; exact Nat.and_one_is_mod _
  have hbit : c.toBitVec.getLsbD 0 = c.toNat.testBit 0 := rfl
  rw [← UInt32.toNat_inj, hand, hbit, Nat.testBit_zero, decide_eq_true_iff]
  rfl

theorem toBitVec_crcShift (c : UInt32) : (crcShift c).toBitVec = Crc.shift crcPoly c.toBitVec := by
  unfold crcShift Crc.shift
  by_cases h : c &&& 1 = 1
  · rw [if_pos h, if_pos ((and_one_eq_one_iff c).1 h)]
    rfl
  · rw [if_neg h, if_neg (mt (and_one_eq_one_iff c).2 h)]
    rfl

theorem toBitVec_crcByte (c : UInt32) (b : UInt8) : (crcByte c b).toBitVec = Crc.step crcPoly c.toBitVec b := by
  unfold crcByte Crc.step
  simp only [toBitVec_crcShift, Crc.shifts, UInt32.toBitVec_xor, UInt8.toBitVec_toUInt32]

theorem toBitVec_foldl_crcByte : ∀ (buf : Bytes) (c : UInt32),
    (buf.foldl crcByte c).toBitVec = Crc.register crcPoly c.toBitVec buf
  | [], _       => rfl
  | b :: buf, c => by
    rw [List.foldl_cons, toBitVec_foldl_crcByte buf, toBitVec_crcByte]
    rfl

/-- **A change within four bytes changes the checksum.** -/
theorem crc32_ne_of_window {x y : Bytes} {i : Nat} (hlen : x.length = y.length) (hne : x ≠ y)
    (hwin : ∀ k, x[k]? ≠ y[k]? → i ≤ k ∧ k < i + 4) : crc32 x ≠ crc32 y := by
  intro h
  rw [crc32_eq, crc32_eq, UInt32.xor_left_inj, ← UInt32.toBitVec_inj, toBitVec_foldl_crcByte, toBitVec_foldl_crcByte] at h
  exact Crc.register_ne_of_window (by decide) _ hlen (by decide) hne hwin h

namespace Packet

/-! ## The cleared checksum field -/

theorem length_zeroSum {buf : Bytes} (h : HEADER_LEN ≤ buf.length) : (zeroSum buf).length = buf.length := by
  unfold HEADER_LEN at h
  rw [zeroSum, List.length_append, List.length_append, List.length_take, List.length_replicate, List.length_drop]
  omega

/-- Outside the field the datagram is as it was. -/
theorem getElem?_zeroSum {buf : Bytes} (h : HEADER_LEN ≤ buf.length) {k : Nat} (hk : k < 28 ∨ 32 ≤ k) :
    (zeroSum buf)[k]? = buf[k]? := by
  unfold HEADER_LEN at h
  have hfront : (buf.take 28 ++ List.replicate 4 (0 : UInt8)).length = 32 := by
    rw [List.length_append, List.length_take, List.length_replicate]
    omega
  rcases hk with hk | hk
  · rw [zeroSum, List.getElem?_append_left (by omega), List.getElem?_append_left (by rw [List.length_take]; omega),
      List.getElem?_take_of_lt hk]
  · rw [zeroSum, List.getElem?_append_right (by omega), hfront, List.getElem?_drop]
    congr 1
    omega

/-- Within it, every datagram has the same bytes. -/
theorem getElem?_zeroSum_field {x y : Bytes} (hx : HEADER_LEN ≤ x.length) (hlen : x.length = y.length) {k : Nat} (h1 : 28 ≤ k)
    (h2 : k < 32) : (zeroSum x)[k]? = (zeroSum y)[k]? := by
  unfold HEADER_LEN at hx
  have hget : ∀ buf : Bytes, 32 ≤ buf.length → (zeroSum buf)[k]? = some 0 := fun buf hb => by
    have htake : (buf.take 28).length = 28 := by rw [List.length_take]; omega
    rw [zeroSum, List.getElem?_append_left (by rw [List.length_append, htake, List.length_replicate]; omega),
      List.getElem?_append_right (by omega), htake, List.getElem?_replicate_of_lt (by omega)]
  rw [hget x hx, hget y (by omega)]

/-- The checksum a datagram carries. -/
def sumField (buf : Bytes) : UInt32 := UInt32.ofNat (leNat ((buf.drop 28).take 4))

theorem getElem?_of_sumField {x y : Bytes} (hx : HEADER_LEN ≤ x.length) (hlen : x.length = y.length)
    (h : sumField x = sumField y) {k : Nat} (h1 : 28 ≤ k) (h2 : k < 32) : x[k]? = y[k]? := by
  unfold HEADER_LEN at hx
  have hfour : ∀ buf : Bytes, 32 ≤ buf.length → ((buf.drop 28).take 4).length = 4 := fun buf hb => by
    rw [List.length_take, List.length_drop]
    omega
  have hlt : ∀ buf : Bytes, 32 ≤ buf.length → (sumField buf).toNat = leNat ((buf.drop 28).take 4) := fun buf hb => by
    have hb' := Blob.leNat_lt ((buf.drop 28).take 4)
    rw [hfour buf hb] at hb'
    exact UInt32.toNat_ofNat_of_lt' hb'
  have hnat := congrArg UInt32.toNat h
  rw [hlt x hx, hlt y (by omega)] at hnat
  have hslice : (x.drop 28).take 4 = (y.drop 28).take 4 := by
    have hbx := Blob.leBytes_leNat ((x.drop 28).take 4)
    have hby := Blob.leBytes_leNat ((y.drop 28).take 4)
    rw [hfour x hx, hnat] at hbx
    rw [hfour y (by omega)] at hby
    exact hbx.symm.trans hby
  have hk : ((x.drop 28).take 4)[k - 28]? = ((y.drop 28).take 4)[k - 28]? := by rw [hslice]
  rwa [List.getElem?_take_of_lt (by omega), List.getElem?_take_of_lt (by omega), List.getElem?_drop, List.getElem?_drop,
    Nat.add_sub_cancel' h1] at hk

theorem sumField_eq {x y : Bytes} (h : ∀ k, 28 ≤ k → k < 32 → x[k]? = y[k]?) : sumField x = sumField y := by
  unfold sumField
  congr 2
  refine List.ext_getElem? (fun k => ?_)
  by_cases hk : k < 4
  · rw [List.getElem?_take_of_lt hk, List.getElem?_take_of_lt hk, List.getElem?_drop, List.getElem?_drop]
    exact h (28 + k) (by omega) (by omega)
  · rw [List.getElem?_take, List.getElem?_take, if_neg hk, if_neg hk]

theorem eq_of_zeroSum_eq {x y : Bytes} (hx : HEADER_LEN ≤ x.length) (hlen : x.length = y.length)
    (hzero : zeroSum x = zeroSum y) (hsum : sumField x = sumField y) : x = y := by
  refine List.ext_getElem? (fun k => ?_)
  by_cases hk : k < 28 ∨ 32 ≤ k
  · rw [← getElem?_zeroSum hx hk, hzero, getElem?_zeroSum (by rwa [← hlen]) hk]
  · rw [not_or] at hk
    exact getElem?_of_sumField hx hlen hsum (by omega) (by omega)

/-! ## Two accepted datagrams -/

/-- **Two datagrams whose sums are right** do not differ within four bytes all inside or all outside the sum's field. -/
theorem eq_of_sums {x y : Bytes} {i : Nat} (hx : HEADER_LEN ≤ x.length) (hlen : x.length = y.length)
    (hsx : crc32 (zeroSum x) = sumField x) (hsy : crc32 (zeroSum y) = sumField y) (hi : i = 28 ∨ i + 4 ≤ 28 ∨ 32 ≤ i)
    (hwin : ∀ k, x[k]? ≠ y[k]? → i ≤ k ∧ k < i + 4) : x = y := by
  have hy : HEADER_LEN ≤ y.length := by rwa [← hlen]
  by_cases hfield : i = 28
  · -- the bytes around the field are the same, so the sums are
    have hzero : zeroSum x = zeroSum y := by
      refine List.ext_getElem? (fun k => ?_)
      by_cases hk : k < 28 ∨ 32 ≤ k
      · rw [getElem?_zeroSum hx hk, getElem?_zeroSum hy hk]
        by_contra hne
        have := hwin k hne
        omega
      · rw [not_or] at hk
        exact getElem?_zeroSum_field hx hlen (by omega) (by omega)
    exact eq_of_zeroSum_eq hx hlen hzero (by rw [← hsx, ← hsy, hzero])
  · -- the fields are the same, so the sums are
    have hsum : sumField x = sumField y := sumField_eq (fun k h1 h2 => by
      by_contra hne
      have := hwin k hne
      omega)
    refine eq_of_zeroSum_eq hx hlen ?_ hsum
    by_contra hne
    refine @crc32_ne_of_window _ _ i (by rw [length_zeroSum hx, length_zeroSum hy, hlen]) hne (fun k hk => ?_)
      (by rw [hsx, hsy, hsum])
    by_cases hout : k < 28 ∨ 32 ≤ k
    · rw [getElem?_zeroSum hx hout, getElem?_zeroSum hy hout] at hk
      exact hwin k hk
    · rw [not_or] at hout
      exact absurd (getElem?_zeroSum_field hx hlen (by omega) (by omega)) hk

theorem sum_of_decode {buf : Bytes} {p : Packet} (h : decode crc32 buf = .ok p) :
    HEADER_LEN ≤ buf.length ∧ crc32 (zeroSum buf) = sumField buf := by
  obtain ⟨hle, -, -, -, -, hcrc, -⟩ := decode_ok h
  exact ⟨hle, hcrc⟩

theorem eq_of_accepted {x y : Bytes} {p q : Packet} {i : Nat} (hx : decode crc32 x = .ok p) (hy : decode crc32 y = .ok q)
    (hlen : x.length = y.length) (hi : i = 28 ∨ i + 4 ≤ 28 ∨ 32 ≤ i) (hwin : ∀ k, x[k]? ≠ y[k]? → i ≤ k ∧ k < i + 4) :
    x = y := by
  obtain ⟨hle, hsx⟩ := sum_of_decode hx
  exact eq_of_sums hle hlen hsx (sum_of_decode hy).2 hi hwin

theorem error_of_window {x y : Bytes} {p : Packet} {i : Nat} (hx : decode crc32 x = .ok p) (hlen : y.length = x.length)
    (hne : y ≠ x) (hi : i = 28 ∨ i + 4 ≤ 28 ∨ 32 ≤ i) (hwin : ∀ k, y[k]? ≠ x[k]? → i ≤ k ∧ k < i + 4) :
    ∃ e, decode crc32 y = .error e := by
  cases hy : decode crc32 y with
  | error e => exact ⟨e, rfl⟩
  | ok q => exact absurd (eq_of_accepted hy hx hlen hi hwin) hne

theorem xor_mask_ne (b : UInt8) {j : Nat} (hj : j < 8) : b ^^^ Bitmap.mask j ≠ b := by
  intro h
  have hzero : Bitmap.mask j = 0 := by
    rw [← UInt8.xor_right_inj b, h, UInt8.xor_zero]
  have hpow := congrArg UInt8.toNat hzero
  rw [Bitmap.toNat_mask hj] at hpow
  exact absurd hpow (Nat.ne_of_gt (Nat.two_pow_pos j))

end Packet

open Packet

/-- **Corruption is detected**: a datagram of the length of an encoded packet that differs from it, within four consecutive
bytes all inside or all outside the checksum field, is not decoded; nor is one with a single bit flipped. -/
theorem corruption_is_detected (p : Packet) (h : p.payload.length < 2 ^ 32) :
    (∀ (b : Bytes) (i : Nat), b.length = (p.encode crc32).length → b ≠ p.encode crc32 →
      (i = 28 ∨ i + 4 ≤ 28 ∨ 32 ≤ i) → (∀ k, b[k]? ≠ (p.encode crc32)[k]? → i ≤ k ∧ k < i + 4) →
      ∃ e, decode crc32 b = .error e) ∧
    ∀ k j, k < (p.encode crc32).length → j < 8 →
      ∃ e, decode crc32 ((p.encode crc32).modify k (· ^^^ Bitmap.mask j)) = .error e := by
  have hp := decode_encode crc32 p h
  refine ⟨fun b i hlen hne hi hwin => error_of_window hp hlen hne hi hwin, fun k j hk hj => ?_⟩
  have hkeep : ∀ k', ((p.encode crc32).modify k (· ^^^ Bitmap.mask j))[k']? ≠ (p.encode crc32)[k']? → k' = k := by
    intro k' hne
    by_contra hother
    exact hne (by simp [Ne.symm hother])
  have hflip : (p.encode crc32).modify k (· ^^^ Bitmap.mask j) ≠ p.encode crc32 := fun he => by
    have hbyte : ((p.encode crc32).modify k (· ^^^ Bitmap.mask j))[k]? = (p.encode crc32)[k]? := by rw [he]
    rw [List.getElem?_modify_eq, List.getElem?_eq_getElem hk] at hbyte
    exact xor_mask_ne _ hj (Option.some.inj hbyte)
  obtain ⟨i, hi, hin⟩ : ∃ i, (i = 28 ∨ i + 4 ≤ 28 ∨ 32 ≤ i) ∧ i ≤ k ∧ k < i + 4 := by
    by_cases hlow : k < 28
    · exact ⟨min k 24, by omega, by omega, by omega⟩
    · by_cases hhigh : 32 ≤ k
      · exact ⟨k, by omega, by omega, by omega⟩
      · exact ⟨28, by omega, by omega, by omega⟩
  refine error_of_window hp (List.length_modify _ _ _) hflip hi (fun k' hk' => ?_)
  rw [hkeep k' hk']
  exact hin

/-- A chunk with its first and its last byte changed on the way, and one with a bit flipped. -/
theorem corruption_is_detected_four :
    let p : Packet := ⟨.data, ⟨0⟩, 7, 0, 2, [1, 2, 3, 4]⟩
    (∃ e, decode crc32 (((p.encode crc32).set 32 9).set 35 9) = .error e) ∧
      ∃ e, decode crc32 ((p.encode crc32).modify 33 (· ^^^ Bitmap.mask 5)) = .error e := by
  intro p
  have hlen : (p.encode crc32).length = 36 := length_encode crc32 p
  have hne : ((p.encode crc32).set 32 9).set 35 9 ≠ p.encode crc32 := fun h => by
    have hbyte : (((p.encode crc32).set 32 9).set 35 9)[35]? = (p.encode crc32)[35]? := by rw [h]
    rw [List.getElem?_set_self (by rw [List.length_set, hlen]; decide)] at hbyte
    exact absurd hbyte (by decide)
  obtain ⟨hwindow, hflip⟩ := corruption_is_detected p (by decide)
  refine ⟨hwindow _ 32 (by rw [List.length_set, List.length_set]) hne (by decide) (fun k hk => ?_),
    hflip 33 5 (by rw [hlen]; decide) (by decide)⟩
  by_contra hout
  exact hk (by rw [List.getElem?_set_ne (by omega), List.getElem?_set_ne (by omega)])

end Parachuter
