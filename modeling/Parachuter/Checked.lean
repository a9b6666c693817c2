import Parachuter.Reassembler
/-!
# The sidecar's code under the machine's checks (`missing_ranges`, `stats` and `Manifest::open`)

The model computes on unbounded numbers and reads past an end as nothing.  Here the same code is written turn by turn with
the checks a debug build makes: `none` is an overflow, a slice out of range, or a loop whose turns have run out.
`missingLoop_eq` says the loops of `missing_ranges` end without one, and list the runs of the chunks not marked.
-/
namespace Parachuter

open Blob (Bytes leBytes leNat)
open Calls (Res)

def checkedAdd (a b : UInt32) : Option UInt32 := if a.toNat + b.toNat < 2 ^ 32 then some (a + b) else none

def checkedSub (a b : UInt32) : Option UInt32 := if b ≤ a then some (a - b) else none

theorem toNat_u32 {n : Nat} (h : n < 2 ^ 32) : (UInt32.ofNat n).toNat = n := UInt32.toNat_ofNat_of_lt' h

theorem checkedAdd_ofNat {a b : Nat} (h : a + b < 2 ^ 32) :
    checkedAdd (UInt32.ofNat a) (UInt32.ofNat b) = some (UInt32.ofNat (a + b)) := by
  have ha : (UInt32.ofNat a).toNat = a := toNat_u32 (by omega)
  have hb : (UInt32.ofNat b).toNat = b := toNat_u32 (by omega)
  rw [checkedAdd, ha, hb, if_pos h, UInt32.ofNat_add]

theorem checkedSub_ofNat {a b : Nat} (h : b ≤ a) (ha : a < 2 ^ 32) :
    checkedSub (UInt32.ofNat a) (UInt32.ofNat b) = some (UInt32.ofNat (a - b)) := by
  have ha' : (UInt32.ofNat a).toNat = a := toNat_u32 ha
  have hb' : (UInt32.ofNat b).toNat = b := toNat_u32 (by omega)
  have hle : UInt32.ofNat b ≤ UInt32.ofNat a := by rw [UInt32.le_iff_toNat_le, ha', hb']; exact h
  rw [checkedSub, if_pos hle]
  congr 1
  rw [← UInt32.toNat_inj, UInt32.toNat_sub_of_le _ _ hle, ha', hb', toNat_u32 (by omega)]

namespace Manifest

/-! ## The loops of `missing_ranges` -/

/-- The inner loop: `i += 1` while the chunk is missing. -/
def endLoop (m : Manifest) : Nat → UInt32 → Option UInt32
  | 0, _        => none
  | fuel + 1, i => if i < m.numChunks && !m.isSet i then (checkedAdd i 1).bind (m.endLoop fuel) else some i

/-- The outer loop, from `i`, with the ranges found so far. -/
def missingLoop (m : Manifest) : Nat → UInt32 → List (UInt32 × UInt32) → Option (List (UInt32 × UInt32))
  | 0, _, _          => none
  | fuel + 1, i, out =>
    if i < m.numChunks then
      if !m.isSet i then do
        let e ← m.endLoop (fuel + 1) i
        let count ← checkedSub e i
        m.missingLoop fuel e (out ++ [(i, count)])
      else do
        let i ← checkedAdd i 1
        m.missingLoop fuel i out
    else some out

section
variable {m : Manifest}

theorem ofNat_lt_numChunks {i : Nat} (hi : i < 2 ^ 32) : UInt32.ofNat i < m.numChunks ↔ i < m.numChunks.toNat := by
  rw [UInt32.lt_iff_toNat_lt, toNat_u32 hi]

theorem isSet_ofNat {i : Nat} (hi : i < 2 ^ 32) : m.isSet (UInt32.ofNat i) = m.has i := by
  rw [isSet, has, toNat_u32 hi]

/-- **The inner loop ends** where the model says, if it is given a turn for each chunk ahead and one to stop. -/
theorem endLoop_eq : ∀ (fuel k i : Nat), i ≤ m.numChunks.toNat → m.numChunks.toNat - i < fuel →
    m.numChunks.toNat - i ≤ k → m.endLoop fuel (UInt32.ofNat i) = some (UInt32.ofNat (gapEnd m.has m.numChunks.toNat k i))
  | 0, k, i, _, hf, _ => absurd hf (Nat.not_lt_zero _)
  | fuel + 1, k, i, hi, hf, hk => by
    have hlt := m.numChunks.toNat_lt
    rw [endLoop, isSet_ofNat (by omega), decide_eq_decide.2 (ofNat_lt_numChunks (by omega))]
    cases k with
    | zero =>
      have hstop : ¬ i < m.numChunks.toNat := by omega
      rw [gapEnd, decide_eq_false hstop, Bool.false_and, if_neg Bool.false_ne_true]
    | succ k =>
      rw [gapEnd]
      split
      · rename_i hc
        simp only [Bool.and_eq_true, decide_eq_true_eq] at hc
        have hadd : checkedAdd (UInt32.ofNat i) 1 = some (UInt32.ofNat (i + 1)) := @checkedAdd_ofNat i 1 (by omega)
        rw [hadd, Option.bind_some]
        exact endLoop_eq fuel k (i + 1) hc.1 (by omega) (by omega)
      · rfl

/-- **The outer loop ends** with the ranges of the model. -/
theorem missingLoop_eq : ∀ (fuel k i : Nat) (out : List (UInt32 × UInt32)), i ≤ m.numChunks.toNat →
    m.numChunks.toNat - i < fuel → m.numChunks.toNat - i ≤ k →
    m.missingLoop fuel (UInt32.ofNat i) out =
      some (out ++ (gaps m.has m.numChunks.toNat k i).map (fun r => (UInt32.ofNat r.1, UInt32.ofNat r.2)))
  | 0, k, i, out, _, hf, _ => absurd hf (Nat.not_lt_zero _)
  | fuel + 1, k, i, out, hi, hf, hk => by
    have hlt := m.numChunks.toNat_lt
    rw [missingLoop]
    by_cases hin : i < m.numChunks.toNat
    · obtain ⟨k, rfl⟩ := Nat.exists_eq_add_one_of_ne_zero (show k ≠ 0 by omega)
      rw [if_pos ((ofNat_lt_numChunks (by omega)).2 hin), gaps, if_pos hin, isSet_ofNat (by omega)]
      cases hs : m.has i with
      | false =>
        obtain ⟨h1, h2, -, -⟩ := @gapEnd_spec m.has m.numChunks.toNat m.numChunks.toNat i hi (Nat.sub_le _ _)
        have hpos := lt_gapEnd hin hs
        have hend := endLoop_eq (fuel + 1) m.numChunks.toNat i hi hf (Nat.sub_le _ _)
        generalize gapEnd m.has m.numChunks.toNat m.numChunks.toNat i = e at *
        have hsub : checkedSub (UInt32.ofNat e) (UInt32.ofNat i) = some (UInt32.ofNat (e - i)) :=
          checkedSub_ofNat h1 (by omega)
        simp only [Bool.not_false, if_true, hend, hsub, Option.bind_eq_bind, Option.bind_some]
        rw [missingLoop_eq fuel k e _ h2 (by omega) (by omega), List.append_assoc]
        rfl
      | true =>
        have hadd : checkedAdd (UInt32.ofNat i) 1 = some (UInt32.ofNat (i + 1)) := @checkedAdd_ofNat i 1 (by omega)
        simp only [Bool.not_true, Bool.false_eq_true, if_false, hadd, Option.bind_eq_bind, Option.bind_some]
        exact missingLoop_eq fuel k (i + 1) out hin (by omega) (by omega)
    · rw [if_neg (mt (ofNat_lt_numChunks (by omega)).1 hin)]
      cases k with
      | zero => rw [gaps, List.map_nil, List.append_nil]
      | succ k => rw [gaps, if_neg hin, List.map_nil, List.append_nil]

end

/-! ## What `stats` counts -/

/-- The counts of the ranges, added up in `u32`, do not overflow, and make up the chunks not marked. -/
theorem sum_missing (m : Manifest) : ((m.missingRanges.map Prod.snd).map UInt32.toNat).sum =
    ((Finset.range m.numChunks.toNat).filter m.Lacks).card := by
  rw [← m.isRuns_missingRanges.sum_lengths (fun j hj => hj.1), List.map_map, List.map_map]
  rfl

theorem toNat_sum : ∀ (l : List UInt32), (l.map UInt32.toNat).sum < 2 ^ 32 → l.sum.toNat = (l.map UInt32.toNat).sum
  | [], _ => rfl
  | a :: l, h => by
    rw [List.map_cons, List.sum_cons] at h
    have ih := toNat_sum l (by omega)
    rw [List.sum_cons, UInt32.toNat_add, ih, List.map_cons, List.sum_cons, Nat.mod_eq_of_lt h]

theorem card_lacks_add_card_has (m : Manifest) : ((Finset.range m.numChunks.toNat).filter m.Lacks).card +
    ((Finset.range m.numChunks.toNat).filter (fun i => m.has i = true)).card = m.numChunks.toNat := by
  have hclear : (Finset.range m.numChunks.toNat).filter m.Lacks =
      (Finset.range m.numChunks.toNat).filter (fun i => ¬ m.has i = true) := by
    refine Finset.filter_congr (fun i hi => ?_)
    rw [Lacks, Bool.not_eq_true]
    exact and_iff_right (Finset.mem_range.1 hi)
  rw [hclear, Nat.add_comm, Finset.card_filter_add_card_filter_not, Finset.card_range]

/-- What `stats` says of a sidecar. -/
def stats (m : Manifest) : AssemblyStats :=
  ⟨m.numChunks, saturatingSub m.numChunks (m.missingRanges.map Prod.snd).sum, !m.name.isEmpty⟩

/-- **The chunks received** are the chunks marked. -/
theorem chunksReceived_stats (m : Manifest) : m.stats.chunksReceived.toNat =
    ((Finset.range m.numChunks.toNat).filter (fun i => m.has i = true)).card := by
  have hcard := m.card_lacks_add_card_has
  have hsum : (m.missingRanges.map Prod.snd).sum.toNat = ((Finset.range m.numChunks.toNat).filter m.Lacks).card := by
    have hlt := m.numChunks.toNat_lt
    rw [toNat_sum _ (by rw [sum_missing]; omega), sum_missing]
  have hle : (m.missingRanges.map Prod.snd).sum ≤ m.numChunks := by
    rw [UInt32.le_iff_toNat_le, hsum]
    omega
  show (saturatingSub m.numChunks _).toNat = _
  rw [saturatingSub, if_pos hle, UInt32.toNat_sub_of_le _ _ hle, hsum]
  omega

end Manifest

theorem Reassembler.exec_stats {crc : Bytes → UInt32} {id : FileId} {d : Disk} {m : Manifest} {buf : Bytes}
    (h : d.get (.manifest id) = some buf) (hm : Manifest.parse crc buf = .ok m) :
    (Reassembler.stats crc id).exec d = (.ok m.stats, d) := by
  unfold Reassembler.stats
  rw [Calls.exec_bind, Manifest.exec_open_some h hm, Calls.andThen_ok]
  rfl

/-- **The ranges `missing_ranges` lists are the maximal runs of the chunks not marked, and no other list is one;
`is_complete` says whether there are none, `stats` counts the rest, and no loop overflows or fails to end.** -/
theorem missing_complete_stats_agree (m : Manifest) (h : m.bitmap.length = (m.numChunks.toNat + 7) / 8) :
    (∀ l : List (UInt32 × UInt32), Runs.IsRuns m.Lacks (l.map Manifest.rangeNat) ↔ l = m.missingRanges) ∧
    (∀ r : UInt32 × UInt32, r ∈ m.missingRanges ↔ Runs.Maximal m.Lacks (Manifest.rangeNat r)) ∧
    m.isComplete = some (decide (m.missingRanges = [])) ∧
    (∀ fuel, m.numChunks.toNat < fuel → m.missingLoop fuel 0 [] = some m.missingRanges) ∧
    ((m.missingRanges.map Prod.snd).map UInt32.toNat).sum < 2 ^ 32 ∧
    m.stats.chunksReceived.toNat = ((Finset.range m.numChunks.toNat).filter (fun i => m.has i = true)).card ∧
    ∀ crc id d buf, d.get (.manifest id) = some buf → Manifest.parse crc buf = .ok m →
      (Reassembler.stats crc id).exec d = (.ok m.stats, d) := by
  have hruns := m.isRuns_missingRanges
  refine ⟨fun l => ?_, fun r => ?_, ?_, fun fuel hf => ?_, ?_, m.chunksReceived_stats,
    fun crc id d buf hd hm => Reassembler.exec_stats hd hm⟩
  · constructor
    · intro hl
      exact Manifest.rangeNat_injective.list_map (hl.unique hruns)
    · rintro rfl
      exact hruns
  · rw [← hruns.mem_iff, List.mem_map_of_injective Manifest.rangeNat_injective]
  · rw [m.isComplete_of_length h]
    congr 1
    exact decide_eq_decide.2 m.missingRanges_eq_nil.symm
  · exact Manifest.missingLoop_eq fuel m.numChunks.toNat 0 [] (Nat.zero_le _) hf (Nat.sub_le _ _)
  · have hcard := m.card_lacks_add_card_has
    have hlt := m.numChunks.toNat_lt
    rw [m.sum_missing]
    omega

/-- Ten chunks of which five are marked, and padding that is set. -/
def Manifest.ten : Manifest := ⟨4, 10, 0, [], [0x33, 0xFE]⟩

theorem missing_complete_stats_agree_ten : Manifest.ten.missingRanges = [(2, 2), (6, 3)] ∧
    Manifest.ten.isComplete = some (decide (Manifest.ten.missingRanges = [])) ∧
    Manifest.ten.stats.chunksReceived.toNat =
      ((Finset.range Manifest.ten.numChunks.toNat).filter (fun i => Manifest.ten.has i = true)).card := by
  obtain ⟨-, -, hcomplete, -, -, hstats, -⟩ := missing_complete_stats_agree Manifest.ten (by decide)
  exact ⟨by decide, hcomplete, hstats⟩

/-! ## The reads of `Manifest::open` -/

/-- `buf[a..b]`. -/
def slice (buf : Bytes) (a b : Nat) : Option Bytes :=
  if a ≤ b ∧ b ≤ buf.length then some ((buf.drop a).take (b - a)) else none

/-- `u32::from_le_bytes(buf[a..b].try_into().unwrap())` and its `u64` sibling: the slice must have `width` bytes. -/
def fieldAt (buf : Bytes) (a b width : Nat) : Option Nat := do
  let s ← slice buf a b
  if s.length = width then some (leNat s) else none

/-- `tmp[28..32].fill(0)`. -/
def zeroed (buf : Bytes) (a b : Nat) : Option Bytes :=
  if a ≤ b ∧ b ≤ buf.length then some (buf.take a ++ List.replicate (b - a) 0 ++ buf.drop b) else none

def checkedAddUsize (a b : Nat) : Option Nat := if a + b < 2 ^ 64 then some (a + b) else none

namespace Manifest

def checkedBitmapLen (numChunks : UInt32) : Option Nat := (checkedAdd numChunks 7).map (fun n => (n / 8).toNat)

/-- The chunk count `open` reads from the header, if it gets that far. -/
def readCount (buf : Bytes) : Option UInt32 :=
  if buf.length < MANIFEST_HEADER_LEN ∨ buf.take 4 ≠ MANIFEST_MAGIC ∨ buf.getD 4 0 ≠ MANIFEST_VERSION then none
  else some (UInt32.ofNat (leNat ((buf.drop 12).take 4)))

/-- `Manifest::open` on the contents of the file, with every read and every sum checked. -/
def checkedParse (crc : Bytes → UInt32) (buf : Bytes) : Option (Except Error Manifest) :=
  if buf.length < MANIFEST_HEADER_LEN then some (.error (.badManifest "short header"))
  else do
    let magic ← slice buf 0 4
    if magic ≠ MANIFEST_MAGIC then some (.error (.badManifest "bad magic"))
    else do
      let version ← buf[4]?
      if version ≠ MANIFEST_VERSION then some (.error (.badManifest "bad version"))
      else do
        let chunkPayloadSize ← fieldAt buf 8 12 4
        let numChunks ← fieldAt buf 12 16 4
        let fileSizeHint ← fieldAt buf 16 24 8
        let nameLen ← fieldAt buf 24 28 4
        let expectedCrc ← fieldAt buf 28 32 4
        let tmp ← zeroed buf 28 32
        let summed ← slice tmp 0 MANIFEST_HEADER_LEN
        if crc summed ≠ UInt32.ofNat expectedCrc then some (.error (.badManifest "crc mismatch"))
        else do
          let nameEnd ← checkedAddUsize MANIFEST_HEADER_LEN nameLen
          let bitmapLen ← checkedBitmapLen (UInt32.ofNat numChunks)
          let fileEnd ← checkedAddUsize nameEnd bitmapLen
          if buf.length < fileEnd then some (.error (.badManifest "truncated"))
          else do
            let name ← slice buf MANIFEST_HEADER_LEN nameEnd
            let bitmap ← slice buf nameEnd fileEnd
            some (.ok ⟨UInt32.ofNat chunkPayloadSize, UInt32.ofNat numChunks, UInt64.ofNat fileSizeHint,
              Utf8.decodeLossy name, bitmap⟩)

section
variable {buf : Bytes}

theorem slice_eq {a b : Nat} (ha : a ≤ b) (hb : b ≤ buf.length) : slice buf a b = some ((buf.drop a).take (b - a)) :=
  if_pos ⟨ha, hb⟩

theorem fieldAt_eq {a b : Nat} (ha : a ≤ b) (hb : b ≤ buf.length) :
    fieldAt buf a b (b - a) = some (leNat ((buf.drop a).take (b - a))) := by
  have hlen : ((buf.drop a).take (b - a)).length = b - a := by
    rw [List.length_take, List.length_drop]
    omega
  unfold fieldAt
  rw [slice_eq ha hb]
  exact if_pos hlen

theorem zeroed_eq {a b : Nat} (ha : a ≤ b) (hb : b ≤ buf.length) :
    zeroed buf a b = some (buf.take a ++ List.replicate (b - a) 0 ++ buf.drop b) := if_pos ⟨ha, hb⟩

/-- The bytes the checksum is of: the header with its checksum field cleared. -/
theorem slice_zeroed (h : MANIFEST_HEADER_LEN ≤ buf.length) :
    slice (buf.take 28 ++ List.replicate 4 0 ++ buf.drop 32) 0 MANIFEST_HEADER_LEN =
      some (buf.take 28 ++ List.replicate 4 0) := by
  unfold MANIFEST_HEADER_LEN at *
  have hlen : (buf.take 28 ++ List.replicate 4 (0 : UInt8)).length = 32 := by
    rw [List.length_append, List.length_take, List.length_replicate]
    omega
  rw [slice_eq (Nat.zero_le _) (by rw [List.length_append, hlen]; omega), List.drop_zero]
  exact congrArg some (List.take_left' hlen)

theorem leNat_lt_u32 (a : Nat) : leNat ((buf.drop a).take 4) < 2 ^ 32 := by
  have hlt := Blob.leNat_lt ((buf.drop a).take 4)
  have hpow : 256 ^ ((buf.drop a).take 4).length ≤ 256 ^ 4 :=
    Nat.pow_le_pow_right (by decide) (List.length_take_le _ _)
  exact Nat.lt_of_lt_of_le hlt hpow

theorem checkedBitmapLen_eq {n : UInt32} (h : n.toNat ≤ 2 ^ 32 - 8) : checkedBitmapLen n = some (bitmapLen n) := by
  have hadd : checkedAdd n 7 = some (n + 7) := if_pos (show n.toNat + 7 < 2 ^ 32 by omega)
  rw [checkedBitmapLen, hadd]
  rfl

theorem bitmapLen_lt (n : UInt32) : bitmapLen n < 2 ^ 32 := ((n + 7) / 8).toNat_lt

/-- **No read of `open` fails**: it answers as the model does. -/
theorem checkedParse_eq (crc : Bytes → UInt32) (hn : ∀ n ∈ readCount buf, n.toNat ≤ 2 ^ 32 - 8) :
    checkedParse crc buf = some (parse crc buf) := by
  unfold checkedParse parse
  by_cases hshort : buf.length < MANIFEST_HEADER_LEN
  · rw [if_pos hshort, if_pos hshort]
  rw [if_neg hshort, if_neg hshort]
  have h32 : MANIFEST_HEADER_LEN ≤ buf.length := Nat.not_lt.1 hshort
  have hmagic : slice buf 0 4 = some (buf.take 4) := slice_eq (Nat.zero_le _) (Nat.le_trans (by decide) h32)
  have hversion : buf[4]? = some (buf.getD 4 0) := by
    rw [List.getD_eq_getElem?_getD, List.getElem?_eq_getElem (Nat.lt_of_lt_of_le (by decide) h32)]
    rfl
  have hfield : ∀ a b, a ≤ b → b ≤ 32 → fieldAt buf a b (b - a) = some (leNat ((buf.drop a).take (b - a))) :=
    fun a b ha hb => fieldAt_eq ha (Nat.le_trans hb h32)
  have hsize := hfield 8 12 (by decide) (by decide)
  have hcount := hfield 12 16 (by decide) (by decide)
  have hhint := hfield 16 24 (by decide) (by decide)
  have hname := hfield 24 28 (by decide) (by decide)
  have hcrc := hfield 28 32 (by decide) (by decide)
  have hzero := @zeroed_eq buf 28 32 (by decide) h32
  simp only [Nat.reduceSub] at hsize hcount hhint hname hcrc hzero
  simp only [hmagic, hversion, hsize, hcount, hhint, hname, hcrc, hzero, slice_zeroed h32, Option.bind_eq_bind,
    Option.bind_some]
  by_cases hm : buf.take 4 ≠ MANIFEST_MAGIC
  · rw [if_pos hm, if_pos hm]
  rw [if_neg hm, if_neg hm]
  by_cases hv : buf.getD 4 0 ≠ MANIFEST_VERSION
  · rw [if_pos hv, if_pos hv]
  rw [if_neg hv, if_neg hv]
  by_cases hc : crc (buf.take 28 ++ List.replicate 4 0) ≠ UInt32.ofNat (leNat ((buf.drop 28).take 4))
  · rw [if_pos hc, if_pos hc]
  rw [if_neg hc, if_neg hc]
  have hread : readCount buf = some (UInt32.ofNat (leNat ((buf.drop 12).take 4))) :=
    if_neg (not_or.2 ⟨hshort, not_or.2 ⟨hm, hv⟩⟩)
  have hlen := checkedBitmapLen_eq (hn _ hread)
  -- the two lengths come from the header, and neither sum reaches `2 ^ 64`
  have hlt := @leNat_lt_u32 buf 24
  have hblt := bitmapLen_lt (UInt32.ofNat (leNat ((buf.drop 12).take 4)))
  have hend : checkedAddUsize MANIFEST_HEADER_LEN (leNat ((buf.drop 24).take 4)) =
      some (MANIFEST_HEADER_LEN + leNat ((buf.drop 24).take 4)) :=
    if_pos (show 32 + leNat ((buf.drop 24).take 4) < 2 ^ 64 by omega)
  generalize leNat ((buf.drop 24).take 4) = nameLen at *
  generalize UInt32.ofNat (leNat ((buf.drop 12).take 4)) = n at *
  have hfile : checkedAddUsize (MANIFEST_HEADER_LEN + nameLen) (bitmapLen n) =
      some (MANIFEST_HEADER_LEN + nameLen + bitmapLen n) :=
    if_pos (show 32 + nameLen + bitmapLen n < 2 ^ 64 by omega)
  simp only [hend, hlen, hfile, Option.bind_some]
  by_cases ht : buf.length < MANIFEST_HEADER_LEN + nameLen + bitmapLen n
  · rw [if_pos ht, if_pos ht]
  rw [if_neg ht, if_neg ht, slice_eq (Nat.le_add_right _ _) (by omega), slice_eq (Nat.le_add_right _ _) (by omega),
    Nat.add_sub_cancel_left, Nat.add_sub_cancel_left]
  rfl

/-- **What `open` accepts** has the chunk count of its header and a byte of bitmap for every eight chunks. -/
theorem length_bitmap_of_parse {crc : Bytes → UInt32} {m : Manifest} (h : parse crc buf = .ok m) :
    readCount buf = some m.numChunks ∧ m.bitmap.length = bitmapLen m.numChunks := by
  unfold parse at h
  split at h
  · cases h
  rename_i hshort
  split at h
  · cases h
  rename_i hmagic
  split at h
  · cases h
  rename_i hversion
  dsimp only at h
  split at h
  · cases h
  split at h
  · cases h
  rename_i ht
  injection h with h
  subst h
  refine ⟨if_neg (not_or.2 ⟨hshort, not_or.2 ⟨hmagic, hversion⟩⟩), ?_⟩
  show ((buf.drop _).take _).length = _
  rw [List.length_take, List.length_drop]
  exact Nat.min_eq_left (by omega)

theorem exec_open {crc : Bytes → UInt32} {id : FileId} {d : Disk} (h : d.get (.manifest id) = some buf) :
    (Manifest.open crc id).exec d =
      (match parse crc buf with
        | .ok m => .ok m
        | .error e => .err e, d) := by
  have hs : FsCall.sem (.read (.manifest id)) d = (.ok buf, d) := by simp only [FsCall.sem, h]
  show (openCont crc id (FsCall.sem (.read (.manifest id)) d).1).exec (FsCall.sem (.read (.manifest id)) d).2 = _
  rw [hs]
  simp only [openCont]
  cases parse crc buf <;> rfl

end

end Manifest

/-- **The sidecar format round-trips, and `open` takes any file without a panic**: what `save` wrote is read back field by
field, and whatever is read has a byte of bitmap for every eight chunks. -/
theorem sidecar_round_trip (crc : Bytes → UInt32) :
    (∀ m : Manifest, m.numChunks.toNat ≤ 2 ^ 32 - 8 → (Utf8.encode m.name).length < 2 ^ 32 →
      m.bitmap.length = (m.numChunks.toNat + 7) / 8 →
      ∀ id d, ((do m.save crc id; Manifest.open crc id) : Fs Manifest).exec d = (.ok m, m.saved crc id d)) ∧
    (∀ buf id d, d.get (.manifest id) = some buf →
      (Manifest.open crc id).exec d =
        (match Manifest.parse crc buf with
          | .ok m => .ok m
          | .error e => .err e, d)) ∧
    (∀ buf, (∀ n ∈ Manifest.readCount buf, n.toNat ≤ 2 ^ 32 - 8) →
      Manifest.checkedParse crc buf = some (Manifest.parse crc buf) ∧
      ∀ m, Manifest.parse crc buf = .ok m → m.bitmap.length = (m.numChunks.toNat + 7) / 8) := by
  refine ⟨fun m hn hname hb id d => ?_, fun buf id d hd => Manifest.exec_open hd, fun buf hn => ?_⟩
  · have hwf : m.Wf := ⟨by rw [hb, Manifest.toNat_bitmapLen hn], hname⟩
    rw [Calls.exec_bind, Manifest.exec_save, Calls.andThen_ok]
    exact Manifest.exec_open_some (Manifest.get_saved_self crc id m d) (Manifest.parse_bytes crc m hwf)
  · refine ⟨Manifest.checkedParse_eq crc hn, fun m hm => ?_⟩
    obtain ⟨hcount, hlen⟩ := Manifest.length_bitmap_of_parse hm
    rw [hlen, Manifest.toNat_bitmapLen (hn _ hcount)]

theorem sidecar_round_trip_ten : (Manifest.open crc32 0).exec (Manifest.ten.saved crc32 0 (Disk.fresh [] true)) =
      (.ok Manifest.ten, Manifest.ten.saved crc32 0 (Disk.fresh [] true)) ∧
    Manifest.checkedParse crc32 (Manifest.ten.bytes crc32) =
      some (Manifest.parse crc32 (Manifest.ten.bytes crc32)) ∧
    Manifest.checkedParse crc32 (List.replicate 40 0xff) =
      some (Manifest.parse crc32 (List.replicate 40 0xff)) := by
  obtain ⟨hround, -, hreads⟩ := sidecar_round_trip crc32
  have hcount : Manifest.readCount (Manifest.ten.bytes crc32) = some 10 := by decide
  have hnone : Manifest.readCount (List.replicate 40 0xff) = none := by decide
  refine ⟨?_, (hreads (Manifest.ten.bytes crc32) (fun n hn => ?_)).1, (hreads _ (fun n hn => ?_)).1⟩
  rotate_left
  · rw [hcount] at hn
    cases hn
    decide
  · rw [hnone] at hn
    cases hn
  have hten := hround Manifest.ten (by decide) (by decide) (by decide) 0 (Disk.fresh [] true)
  rw [Calls.exec_bind, Manifest.exec_save, Calls.andThen_ok] at hten
  exact hten

end Parachuter
