import Mathlib.Tactic.Ring
/-!
# Blobs — byte strings, little-endian integers and the contents of a file

A file's contents are a list of bytes.  `setLen` and `writeAt` are what `ftruncate` and a positioned write do to them:
growing fills with zeros, shrinking cuts, a write past the end leaves a hole of zeros before it.  `Holds d off w` says
that `d` has the bytes `w` at offset `off`; the frame lemmas (`Holds.writeAt_disjoint`, `Holds.setLen`) say which
updates leave such a fact alone, and `eq_of_holds_pieces` puts a whole file together from the facts about its pieces.
-/
namespace Blob

abbrev Bytes := List UInt8

/-! ## Little-endian integers -/

/-- The `k` low bytes of `n`, least significant first. -/
def leBytes : Nat → Nat → Bytes
  | 0, _     => []
  | k + 1, n => UInt8.ofNat n :: leBytes k (n / 256)

def leNat : Bytes → Nat
  | []      => 0
  | b :: bs => b.toNat + 256 * leNat bs

@[simp] theorem length_leBytes : ∀ (k n : Nat), (leBytes k n).length = k
  | 0, _     => rfl
  | k + 1, n => by simp [leBytes, length_leBytes k]

@[simp] theorem drop_leBytes {k m : Nat} (n : Nat) (h : k ≤ m) : (leBytes k n).drop m = [] :=
  List.drop_eq_nil_of_le (by simpa using h)

theorem leNat_lt : ∀ (bs : Bytes), leNat bs < 256 ^ bs.length
  | []      => by simp [leNat]
  | b :: bs => by
    have ih := leNat_lt bs
    have hb := b.toNat_lt
    simp only [leNat, List.length_cons, Nat.pow_succ]
    omega

/-- **Reading back the bytes of `n`** keeps what fits in them. -/
theorem leNat_leBytes : ∀ (k n : Nat), leNat (leBytes k n) = n % 256 ^ k
  | 0, n     => by simp [leBytes, leNat, Nat.mod_one]
  | k + 1, n => by
    have hb : (UInt8.ofNat n).toNat = n % 256 := UInt8.toNat_ofNat'
    rw [leBytes, leNat, leNat_leBytes k, hb, Nat.pow_succ', Nat.mod_mul]

/-- **Writing back what was read** gives the same bytes. -/
theorem leBytes_leNat : ∀ (bs : Bytes), leBytes bs.length (leNat bs) = bs
  | []      => rfl
  | b :: bs => by
    have hb := b.toNat_lt
    have hd : (b.toNat + 256 * leNat bs) / 256 = leNat bs := by omega
    have hm : UInt8.ofNat (b.toNat + 256 * leNat bs) = b := by
      apply UInt8.toNat_inj.1
      rw [UInt8.toNat_ofNat']
      omega
    simp only [leNat, List.length_cons, leBytes, hd, hm, leBytes_leNat bs]

/-! ## File contents -/

/-- `ftruncate`: cut at `n`, or grow to `n` with zeros. -/
def setLen (d : Bytes) (n : Nat) : Bytes := d.take n ++ List.replicate (n - d.length) 0

/-- A write of `w` at offset `off`.  Writing nothing does nothing, also past the end. -/
def writeAt (d : Bytes) (off : Nat) : Bytes → Bytes
  | []     => d
  | b :: w => setLen d off ++ (b :: w) ++ d.drop (off + (w.length + 1))

@[simp] theorem length_setLen (d : Bytes) (n : Nat) : (setLen d n).length = n := by
  simp only [setLen, List.length_append, List.length_take, List.length_replicate]
  omega

theorem length_writeAt (d : Bytes) (off : Nat) (w : Bytes) (h : off + w.length ≤ d.length) :
    (writeAt d off w).length = d.length := by
  cases w with
  | nil => rfl
  | cons b w =>
    simp only [List.length_cons] at h
    simp only [writeAt, List.length_append, length_setLen, List.length_cons, List.length_drop]
    omega

@[simp] theorem writeAt_nil_zero (w : Bytes) : writeAt [] 0 w = w := by
  cases w with
  | nil => rfl
  | cons b w => simp [writeAt, setLen]

theorem getElem?_setLen_of_lt {d : Bytes} {n i : Nat} (hi : i < d.length) (hn : i < n) : (setLen d n)[i]? = d[i]? := by
  unfold setLen
  rw [List.getElem?_append_left (by rw [List.length_take]; omega), List.getElem?_take_of_lt hn]

theorem getElem?_writeAt_inside {d w : Bytes} {off i : Nat} (hi : i < w.length) :
    (writeAt d off w)[off + i]? = w[i]? := by
  cases w with
  | nil => simp at hi
  | cons b w =>
    rw [writeAt, List.append_assoc, List.getElem?_append_right (by simp), length_setLen, Nat.add_sub_cancel_left,
      List.getElem?_append_left hi]

theorem getElem?_writeAt_outside {d w : Bytes} {off i : Nat} (hoff : off ≤ d.length)
    (hi : i < off ∨ off + w.length ≤ i) : (writeAt d off w)[i]? = d[i]? := by
  cases w with
  | nil => rfl
  | cons b w =>
    rw [writeAt, List.append_assoc]
    rcases hi with hi | hi
    · rw [List.getElem?_append_left (by simpa using hi), getElem?_setLen_of_lt (by omega) hi]
    · simp only [List.length_cons] at hi
      rw [List.getElem?_append_right (by rw [length_setLen]; omega), length_setLen,
        List.getElem?_append_right (by rw [List.length_cons]; omega), List.getElem?_drop, List.length_cons]
      congr 1
      omega

/-! ## A piece of a file -/

/-- `d` has the bytes `w` at offset `off`. -/
def Holds (d : Bytes) (off : Nat) (w : Bytes) : Prop := ∀ i, i < w.length → d[off + i]? = w[i]?

theorem Holds.le_length {d w : Bytes} {off : Nat} (h : Holds d off w) (hw : w ≠ []) : off + w.length ≤ d.length := by
  have hpos : 0 < w.length := List.length_pos_iff.2 hw
  have hlast := h (w.length - 1) (by omega)
  rw [List.getElem?_eq_getElem (by omega : w.length - 1 < w.length)] at hlast
  have := (List.getElem?_eq_some_iff.1 hlast).1
  omega

/-- **A write leaves its own bytes behind.** -/
theorem holds_writeAt (d : Bytes) (off : Nat) (w : Bytes) : Holds (writeAt d off w) off w :=
  fun _ hi => getElem?_writeAt_inside hi

/-- **A write leaves every piece it does not touch.** -/
theorem Holds.writeAt_disjoint {d w v : Bytes} {off off' : Nat} (h : Holds d off w) (hoff : off' ≤ d.length)
    (hd : off + w.length ≤ off' ∨ off' + v.length ≤ off) : Holds (writeAt d off' v) off w := by
  intro i hi
  rw [getElem?_writeAt_outside hoff (by omega)]
  exact h i hi

/-- **A change of length leaves every piece it does not cut.** -/
theorem Holds.setLen {d w : Bytes} {off n : Nat} (h : Holds d off w) (hn : off + w.length ≤ n) :
    Holds (setLen d n) off w := by
  intro i hi
  have hlt : off + i < d.length := by
    have := Holds.le_length h (by intro h0; simp [h0] at hi)
    omega
  rw [getElem?_setLen_of_lt hlt (by omega)]
  exact h i hi

/-- **Writing what is already there changes nothing.** -/
theorem writeAt_of_holds {d w : Bytes} {off : Nat} (h : Holds d off w) : writeAt d off w = d := by
  by_cases hw : w = []
  · subst hw; rfl
  · have hle := h.le_length hw
    apply List.ext_getElem?
    intro i
    by_cases hi : off ≤ i ∧ i < off + w.length
    · obtain ⟨j, rfl⟩ := Nat.exists_eq_add_of_le hi.1
      rw [getElem?_writeAt_inside (by omega), h j (by omega)]
    · exact getElem?_writeAt_outside (by omega) (by omega)

/-! ## Placing a piece -/

/-- Grow the file to hold `w` at `off`, write it, and with `cut` end the file right after it. -/
def place (d : Bytes) (off : Nat) (w : Bytes) (cut : Bool) : Bytes :=
  let d := if d.length < off + w.length then setLen d (off + w.length) else d
  let d := writeAt d off w
  if cut then setLen d (off + w.length) else d

/-- The file before the cut is long enough, and no shorter than it was. -/
theorem length_grown (d : Bytes) (n : Nat) :
    (if d.length < n then setLen d n else d).length = max d.length n := by
  split
  · rw [length_setLen]; omega
  · omega

theorem length_place (d : Bytes) (off : Nat) (w : Bytes) (cut : Bool) :
    (place d off w cut).length = if cut then off + w.length else max d.length (off + w.length) := by
  unfold place
  cases cut with
  | true => simp
  | false =>
    have hg := length_grown d (off + w.length)
    show (writeAt _ off w).length = max d.length (off + w.length)
    rw [length_writeAt _ _ _ (by rw [hg]; exact Nat.le_max_right _ _), hg]

theorem holds_place (d : Bytes) (off : Nat) (w : Bytes) (cut : Bool) : Holds (place d off w cut) off w := by
  unfold place
  cases cut with
  | true => exact (holds_writeAt _ off w).setLen (Nat.le_refl _)
  | false => exact holds_writeAt _ off w

/-- **Placing a piece leaves every other piece** it neither touches nor cuts off. -/
theorem Holds.place {d v w : Bytes} {o off : Nat} {cut : Bool} (h : Holds d o v)
    (hd : o + v.length ≤ off ∨ off + w.length ≤ o) (hc : cut = true → o + v.length ≤ off + w.length) :
    Holds (place d off w cut) o v := by
  have hgrow : Holds (if d.length < off + w.length then Blob.setLen d (off + w.length) else d) o v := by
    split
    · rename_i hlt
      by_cases hv : v = []
      · subst hv; intro i hi; simp at hi
      · have := h.le_length hv
        exact h.setLen (by omega)
    · exact h
  have hlen := length_grown d (off + w.length)
  have hw := hgrow.writeAt_disjoint (by rw [hlen]; omega : off ≤ _) hd
  unfold Blob.place
  cases cut with
  | true => exact hw.setLen (hc rfl)
  | false => exact hw

theorem getElem?_place_inside (d w : Bytes) (cut : Bool) {off k : Nat} (hlo : off ≤ k) (hhi : k < off + w.length) :
    (place d off w cut)[k]? = w[k - off]? := by
  obtain ⟨j, rfl⟩ := Nat.exists_eq_add_of_le hlo
  rw [Nat.add_sub_cancel_left]
  exact holds_place d off w cut j (by omega)

/-- A byte that the piece does not touch and the cut does not take. -/
theorem getElem?_place_outside {d w : Bytes} {off k : Nat} {cut : Bool} {b : UInt8} (hb : d[k]? = some b)
    (hk : k < off ∨ off + w.length ≤ k) (hcut : cut = true → k < off + w.length) : (place d off w cut)[k]? = some b := by
  have hold : Holds d k [b] := by
    intro i hi
    obtain rfl : i = 0 := Nat.lt_one_iff.1 hi
    exact hb
  exact hold.place (by simp only [List.length_singleton]; omega) hcut 0 (Nat.lt_succ_self 0)

/-- **Placing a piece again** leaves every byte that the cut does not take. -/
theorem getElem?_place_again {d w : Bytes} {off k : Nat} {cut : Bool} {b : UInt8} (h : Holds d off w) (hb : d[k]? = some b)
    (hcut : cut = true → k < off + w.length) : (place d off w cut)[k]? = some b := by
  by_cases hk : off ≤ k ∧ k < off + w.length
  · rw [getElem?_place_inside d w cut hk.1 hk.2, ← h (k - off) (by omega), Nat.add_sub_cancel' hk.1, hb]
  · exact getElem?_place_outside hb (by omega) hcut

theorem setLen_self (d : Bytes) : setLen d d.length = d := by
  rw [setLen, List.take_length, Nat.sub_self, List.replicate_zero, List.append_nil]

/-- **When placing a piece changes nothing**: it is there already, and the file reaches its end, or ends there. -/
theorem place_eq_self_iff {d w : Bytes} {off : Nat} {cut : Bool} : place d off w cut = d ↔
    Holds d off w ∧ off + w.length ≤ d.length ∧ (cut = true → d.length = off + w.length) := by
  constructor
  · intro h
    have hholds := holds_place d off w cut
    have hlen := length_place d off w cut
    rw [h] at hholds hlen
    refine ⟨hholds, ?_, fun hcut => ?_⟩
    · split at hlen <;> omega
    · rw [hlen, if_pos hcut]
  · rintro ⟨hholds, hle, hcut⟩
    unfold place
    dsimp only
    rw [if_neg (Nat.not_lt.2 hle), writeAt_of_holds hholds]
    split
    · rename_i hc
      rw [← hcut hc, setLen_self]
    · rfl

/-- **A file put together from its pieces**: two files of one length agree when every position lies in a piece of the
second that the first holds. -/
theorem eq_of_holds_pieces {d c : Bytes} (hlen : d.length = c.length)
    (h : ∀ i, i < c.length → ∃ off n, off ≤ i ∧ i < off + n ∧ off + n ≤ c.length ∧ Holds d off ((c.drop off).take n)) :
    d = c := by
  apply List.ext_getElem?
  intro i
  by_cases hi : i < c.length
  · obtain ⟨off, n, h1, h2, h3, hp⟩ := h i hi
    obtain ⟨j, rfl⟩ := Nat.exists_eq_add_of_le h1
    have hj : j < ((c.drop off).take n).length := by
      rw [List.length_take, List.length_drop]; omega
    rw [hp j hj, List.getElem?_take_of_lt (by omega), List.getElem?_drop]
  · rw [List.getElem?_eq_none (by omega), List.getElem?_eq_none (by omega)]

end Blob
