import Parachuter.Lib.Blob
/-!
# UTF-8 over lists of characters

`encode` is the UTF-8 encoding of a text; `decodeLossy` is the decoding that replaces every maximal ill-formed
subsequence by U+FFFD, as the Unicode standard recommends.  `decodeLossy_encode` is the fact programs rely on: a text
survives the trip.
-/
namespace Utf8

open Blob (Bytes)

def encode (s : List Char) : Bytes := s.flatMap String.utf8EncodeChar

def isCont (b : UInt8) : Bool := decide (0x80 ≤ b.toNat) && decide (b.toNat ≤ 0xBF)

/-- The second bytes that may follow the first byte of a three-byte sequence. -/
def second3 (b c : UInt8) : Bool :=
  isCont c && (b.toNat != 0xE0 || decide (0xA0 ≤ c.toNat)) && (b.toNat != 0xED || decide (c.toNat ≤ 0x9F))

/-- The second bytes that may follow the first byte of a four-byte sequence. -/
def second4 (b c : UInt8) : Bool :=
  isCont c && (b.toNat != 0xF0 || decide (0x90 ≤ c.toNat)) && (b.toNat != 0xF4 || decide (c.toNat ≤ 0x8F))

/-- The first character of a non-empty byte string and the number of bytes it takes; an ill-formed start yields
U+FFFD for its maximal subpart. -/
def decodeHead (b : UInt8) (rest : Bytes) : Char × Nat :=
  let bad : Char := Char.ofNat 0xFFFD
  let at_ (i : Nat) : UInt8 := rest.getD i 0
  if b.toNat ≤ 0x7F then (Char.ofNat b.toNat, 1)
  else if b.toNat < 0xC2 then (bad, 1)
  else if b.toNat ≤ 0xDF then
    if isCont (at_ 0) then (Char.ofNat ((b.toNat - 0xC0) * 64 + ((at_ 0).toNat - 0x80)), 2) else (bad, 1)
  else if b.toNat ≤ 0xEF then
    if !second3 b (at_ 0) then (bad, 1)
    else if !isCont (at_ 1) then (bad, 2)
    else (Char.ofNat ((b.toNat - 0xE0) * 4096 + ((at_ 0).toNat - 0x80) * 64 + ((at_ 1).toNat - 0x80)), 3)
  else if b.toNat ≤ 0xF4 then
    if !second4 b (at_ 0) then (bad, 1)
    else if !isCont (at_ 1) then (bad, 2)
    else if !isCont (at_ 2) then (bad, 3)
    else (Char.ofNat ((b.toNat - 0xF0) * 262144 + ((at_ 0).toNat - 0x80) * 4096 + ((at_ 1).toNat - 0x80) * 64
      + ((at_ 2).toNat - 0x80)), 4)
  else (bad, 1)

/-- One character per step; every character takes at least one byte, so the length is fuel enough. -/
def decodeFrom : Nat → Bytes → List Char
  | 0, _          => []
  | _ + 1, []     => []
  | k + 1, b :: r => (decodeHead b r).1 :: decodeFrom k (r.drop ((decodeHead b r).2 - 1))

def decodeLossy (bs : Bytes) : List Char := decodeFrom bs.length bs

/-! ## The four lengths -/

theorem decodeHead_one {b : UInt8} (r : Bytes) (hb : b.toNat ≤ 0x7F) : decodeHead b r = (Char.ofNat b.toNat, 1) := by
  simp only [decodeHead, hb, if_true]

theorem decodeHead_two {b c : UInt8} (r : Bytes) (hb : 0xC2 ≤ b.toNat) (hb' : b.toNat ≤ 0xDF) (hc : isCont c = true) :
    decodeHead b (c :: r) = (Char.ofNat ((b.toNat - 0xC0) * 64 + (c.toNat - 0x80)), 2) := by
  have h1 : ¬ b.toNat ≤ 0x7F := by omega
  have h2 : ¬ b.toNat < 0xC2 := by omega
  simp only [decodeHead, h1, h2, hb', if_true, if_false, List.getD_cons_zero, hc]

theorem decodeHead_three {b c d : UInt8} (r : Bytes) (hb : 0xE0 ≤ b.toNat) (hb' : b.toNat ≤ 0xEF)
    (hc : second3 b c = true) (hd : isCont d = true) :
    decodeHead b (c :: d :: r) =
      (Char.ofNat ((b.toNat - 0xE0) * 4096 + (c.toNat - 0x80) * 64 + (d.toNat - 0x80)), 3) := by
  have h1 : ¬ b.toNat ≤ 0x7F := by omega
  have h2 : ¬ b.toNat < 0xC2 := by omega
  have h3 : ¬ b.toNat ≤ 0xDF := by omega
  simp only [decodeHead, h1, h2, h3, hb', if_true, if_false, List.getD_cons_zero, List.getD_cons_succ, hc, hd,
    Bool.not_true, Bool.false_eq_true]

theorem decodeHead_four {b c d e : UInt8} (r : Bytes) (hb : 0xF0 ≤ b.toNat) (hb' : b.toNat ≤ 0xF4)
    (hc : second4 b c = true) (hd : isCont d = true) (he : isCont e = true) :
    decodeHead b (c :: d :: e :: r) =
      (Char.ofNat ((b.toNat - 0xF0) * 262144 + (c.toNat - 0x80) * 4096 + (d.toNat - 0x80) * 64 + (e.toNat - 0x80)),
        4) := by
  have h1 : ¬ b.toNat ≤ 0x7F := by omega
  have h2 : ¬ b.toNat < 0xC2 := by omega
  have h3 : ¬ b.toNat ≤ 0xDF := by omega
  have h4 : ¬ b.toNat ≤ 0xEF := by omega
  simp only [decodeHead, h1, h2, h3, h4, hb', if_true, if_false, List.getD_cons_zero, List.getD_cons_succ, hc, hd, he,
    Bool.not_true, Bool.false_eq_true]

theorem isCont_of {b : UInt8} {n : Nat} (h : b.toNat = n % 64 + 0x80) : isCont b = true := by
  simp only [isCont, h, Bool.and_eq_true, decide_eq_true_eq]
  omega

theorem toNat_byte {n m : Nat} (h : n = m) (hm : m < 256) : (UInt8.ofNat n).toNat = m := by
  rw [UInt8.toNat_ofNat', h]
  exact Nat.mod_eq_of_lt hm

/-- **The head of an encoded text is its first character.** -/
theorem decodeHead_encode (c : Char) (r : Bytes) : ∃ b w, String.utf8EncodeChar c = b :: w ∧
    decodeHead b (w ++ r) = (c, w.length + 1) := by
  have hv : c.val.toNat < 0xD800 ∨ (0xDFFF < c.val.toNat ∧ c.val.toNat < 0x110000) := c.valid
  have hc : Char.ofNat c.val.toNat = c := Char.ofNat_toNat c
  unfold String.utf8EncodeChar
  simp only
  generalize c.val.toNat = v at hv hc
  split
  · rename_i h1
    refine ⟨_, [], rfl, ?_⟩
    have e0 : (UInt8.ofNat v).toNat = v := toNat_byte rfl (by omega)
    rw [decodeHead_one _ (by omega), e0, hc]
    rfl
  · rename_i h1
    split
    · rename_i h2
      refine ⟨_, [_], rfl, ?_⟩
      have e0 : (UInt8.ofNat (v / 64 % 32 + 0xc0)).toNat = v / 64 + 0xc0 := toNat_byte (by omega) (by omega)
      have e1 : (UInt8.ofNat (v % 64 + 0x80)).toNat = v % 64 + 0x80 := toNat_byte rfl (by omega)
      have hs : (v / 64 + 0xc0 - 0xc0) * 64 + (v % 64 + 0x80 - 0x80) = v := by omega
      rw [List.cons_append, List.nil_append, decodeHead_two _ (by omega) (by omega) (isCont_of e1), e0, e1, hs, hc]
      rfl
    · rename_i h2
      split
      · rename_i h3
        refine ⟨_, [_, _], rfl, ?_⟩
        have e0 : (UInt8.ofNat (v / 4096 % 16 + 0xe0)).toNat = v / 4096 + 0xe0 := toNat_byte (by omega) (by omega)
        have e1 : (UInt8.ofNat (v / 64 % 64 + 0x80)).toNat = v / 64 % 64 + 0x80 := toNat_byte rfl (by omega)
        have e2 : (UInt8.ofNat (v % 64 + 0x80)).toNat = v % 64 + 0x80 := toNat_byte rfl (by omega)
        have hsec : second3 (UInt8.ofNat (v / 4096 % 16 + 0xe0)) (UInt8.ofNat (v / 64 % 64 + 0x80)) = true := by
          simp only [second3, isCont_of e1, e0, e1, Bool.and_eq_true, Bool.or_eq_true, decide_eq_true_eq, bne_iff_ne,
            true_and]
          omega
        have hs : (v / 4096 + 0xe0 - 0xe0) * 4096 + (v / 64 % 64 + 0x80 - 0x80) * 64 + (v % 64 + 0x80 - 0x80) = v := by
          omega
        rw [List.cons_append, List.cons_append, List.nil_append,
          decodeHead_three _ (by omega) (by omega) hsec (isCont_of e2), e0, e1, e2, hs, hc]
        rfl
      · rename_i h3
        refine ⟨_, [_, _, _], rfl, ?_⟩
        have e0 : (UInt8.ofNat (v / 262144 % 8 + 0xf0)).toNat = v / 262144 + 0xf0 := toNat_byte (by omega) (by omega)
        have e1 : (UInt8.ofNat (v / 4096 % 64 + 0x80)).toNat = v / 4096 % 64 + 0x80 := toNat_byte rfl (by omega)
        have e2 : (UInt8.ofNat (v / 64 % 64 + 0x80)).toNat = v / 64 % 64 + 0x80 := toNat_byte rfl (by omega)
        have e3 : (UInt8.ofNat (v % 64 + 0x80)).toNat = v % 64 + 0x80 := toNat_byte rfl (by omega)
        have hsec : second4 (UInt8.ofNat (v / 262144 % 8 + 0xf0)) (UInt8.ofNat (v / 4096 % 64 + 0x80)) = true := by
          simp only [second4, isCont_of e1, e0, e1, Bool.and_eq_true, Bool.or_eq_true, decide_eq_true_eq, bne_iff_ne,
            true_and]
          omega
        have hs : (v / 262144 + 0xf0 - 0xf0) * 262144 + (v / 4096 % 64 + 0x80 - 0x80) * 4096
            + (v / 64 % 64 + 0x80 - 0x80) * 64 + (v % 64 + 0x80 - 0x80) = v := by omega
        rw [List.cons_append, List.cons_append, List.cons_append, List.nil_append,
          decodeHead_four _ (by omega) (by omega) hsec (isCont_of e2) (isCont_of e3), e0, e1, e2, e3, hs, hc]
        rfl

theorem decodeFrom_encode : ∀ (s : List Char) (k : Nat), (encode s).length ≤ k → decodeFrom k (encode s) = s
  | [], k, _ => by cases k <;> rfl
  | c :: s, k, hk => by
    obtain ⟨b, w, hb, hd⟩ := decodeHead_encode c (encode s)
    have he : encode (c :: s) = b :: (w ++ encode s) := by simp [encode, hb]
    rw [he] at hk ⊢
    cases k with
    | zero => simp at hk
    | succ k =>
      simp only [List.length_cons, List.length_append] at hk
      simp only [decodeFrom, hd, Nat.add_sub_cancel, List.drop_left]
      rw [decodeFrom_encode s k (by omega)]

/-- **A text survives encoding and lossy decoding.** -/
theorem decodeLossy_encode (s : List Char) : decodeLossy (encode s) = s := decodeFrom_encode s _ (Nat.le_refl _)

/-! ## Lengths -/

theorem length_decodeFrom_le : ∀ (k : Nat) (bs : Bytes), (decodeFrom k bs).length ≤ k
  | 0, _          => Nat.le_refl 0
  | k + 1, []     => Nat.zero_le _
  | k + 1, b :: r => by
    rw [decodeFrom, List.length_cons]
    exact Nat.succ_le_succ (length_decodeFrom_le k _)

theorem length_encode_le (s : List Char) : (encode s).length ≤ 4 * s.length := by
  induction s with
  | nil => exact Nat.le_refl 0
  | cons c s ih =>
    have hc : (String.utf8EncodeChar c).length ≤ 4 := by
      rw [String.length_utf8EncodeChar]
      exact Char.utf8Size_le_four c
    rw [encode, List.flatMap_cons, List.length_append, List.length_cons]
    have ih' : (s.flatMap String.utf8EncodeChar).length ≤ 4 * s.length := ih
    omega

/-- **What is decoded from a text of any bytes** is at most four times as long, encoded again. -/
theorem length_encode_decodeLossy_le (bs : Bytes) : (encode (decodeLossy bs)).length ≤ 4 * bs.length :=
  Nat.le_trans (length_encode_le _) (Nat.mul_le_mul_left 4 (length_decodeFrom_le _ _))

end Utf8
