import Parachuter.Disk
import Parachuter.Lib.Bitmap
import Parachuter.Lib.Runs
import Parachuter.Lib.Utf8
/-!
# The sidecar of an assembly (`Manifest` in `reassembler.rs`)

`Manifest.bytes` and `Manifest.parse` are the file format, `create`, `open` and `save` the calls around it.  `crc` stands
for `crc32fast::hash`.  `parse_bytes` is the round trip; `exec_save`, `exec_open` say what the calls do on a disk without
faults, so that no later proof opens them again.  The last sections read the bitmap as a set of chunk ids: completeness
(`isComplete_iff`) and the missing ranges (`mem_missingRanges`).
-/
namespace Parachuter

open Blob (Bytes leBytes leNat)
open Calls (Res)

def MANIFEST_MAGIC : Bytes := [0x50, 0x4D, 0x41, 0x4E]
def MANIFEST_VERSION : UInt8 := 1
def MANIFEST_HEADER_LEN : Nat := 32

structure Manifest where
  chunkPayloadSize : UInt32
  numChunks        : UInt32
  fileSizeHint     : UInt64
  name             : List Char
  bitmap           : Bytes
  deriving DecidableEq, Repr

namespace Manifest

/-- `bitmap_len`: the addition is in `u32`, and wraps in a release build. -/
def bitmapLen (numChunks : UInt32) : Nat := ((numChunks + 7) / 8).toNat

/-! ## The file format -/

/-- The header, with the checksum field holding `sum`. -/
def header (m : Manifest) (sum : UInt32) : Bytes :=
  MANIFEST_MAGIC ++ [MANIFEST_VERSION, 0, 0, 0] ++ leBytes 4 m.chunkPayloadSize.toNat ++ leBytes 4 m.numChunks.toNat
    ++ leBytes 8 m.fileSizeHint.toNat ++ leBytes 4 (Utf8.encode m.name).length ++ leBytes 4 sum.toNat

def bytes (crc : Bytes → UInt32) (m : Manifest) : Bytes :=
  m.header (crc (m.header 0)) ++ Utf8.encode m.name ++ m.bitmap

/-- The checks and reads of `Manifest::open`, on the contents of the file. -/
def parse (crc : Bytes → UInt32) (buf : Bytes) : Except Error Manifest :=
  if buf.length < MANIFEST_HEADER_LEN then .error (.badManifest "short header")
  else if buf.take 4 ≠ MANIFEST_MAGIC then .error (.badManifest "bad magic")
  else if buf.getD 4 0 ≠ MANIFEST_VERSION then .error (.badManifest "bad version")
  else
    let chunkPayloadSize := UInt32.ofNat (leNat ((buf.drop 8).take 4))
    let numChunks := UInt32.ofNat (leNat ((buf.drop 12).take 4))
    let fileSizeHint := UInt64.ofNat (leNat ((buf.drop 16).take 8))
    let nameLen := leNat ((buf.drop 24).take 4)
    let expectedCrc := UInt32.ofNat (leNat ((buf.drop 28).take 4))
    if crc (buf.take 28 ++ List.replicate 4 0) ≠ expectedCrc then .error (.badManifest "crc mismatch")
    else
      let nameEnd := MANIFEST_HEADER_LEN + nameLen
      if buf.length < nameEnd + bitmapLen numChunks then .error (.badManifest "truncated")
      else .ok ⟨chunkPayloadSize, numChunks, fileSizeHint,
        Utf8.decodeLossy ((buf.drop MANIFEST_HEADER_LEN).take nameLen), (buf.drop nameEnd).take (bitmapLen numChunks)⟩

/-- What a sidecar must be for its file to be read back: the bitmap has its length, the name fits its field. -/
structure Wf (m : Manifest) : Prop where
  bitmap : m.bitmap.length = bitmapLen m.numChunks
  name   : (Utf8.encode m.name).length < 2 ^ 32

@[simp] theorem length_header (m : Manifest) (sum : UInt32) : (m.header sum).length = MANIFEST_HEADER_LEN := by
  simp [header, MANIFEST_MAGIC, MANIFEST_HEADER_LEN]

theorem header_fields (m : Manifest) (sum : UInt32) (rest : Bytes) :
    let buf := m.header sum ++ rest
    buf.take 4 = MANIFEST_MAGIC ∧ buf.getD 4 0 = MANIFEST_VERSION ∧
    UInt32.ofNat (leNat ((buf.drop 8).take 4)) = m.chunkPayloadSize ∧
    UInt32.ofNat (leNat ((buf.drop 12).take 4)) = m.numChunks ∧
    UInt64.ofNat (leNat ((buf.drop 16).take 8)) = m.fileSizeHint ∧
    leNat ((buf.drop 24).take 4) = (Utf8.encode m.name).length % 2 ^ 32 ∧
    UInt32.ofNat (leNat ((buf.drop 28).take 4)) = sum ∧
    buf.take 28 ++ List.replicate 4 0 = m.header 0 ∧ buf.drop MANIFEST_HEADER_LEN = rest := by
  refine ⟨?_, ?_, ?_, ?_, ?_, ?_, ?_, ?_, ?_⟩
  · simp [header, MANIFEST_MAGIC]
  · simp [header, MANIFEST_MAGIC]
  · simp [header, MANIFEST_MAGIC, Blob.leNat_leBytes]
  · simp [header, MANIFEST_MAGIC, Blob.leNat_leBytes]
  · simp [header, MANIFEST_MAGIC, List.drop_append, Blob.leNat_leBytes]
  · simp [header, MANIFEST_MAGIC, List.drop_append, Blob.leNat_leBytes]
  · simp [header, MANIFEST_MAGIC, List.drop_append, Blob.leNat_leBytes]
  · simp [header, MANIFEST_MAGIC, leBytes]
  · rw [List.drop_append, List.drop_eq_nil_of_le (by simp)]; simp

/-- **The sidecar format round-trips.** -/
theorem parse_bytes (crc : Bytes → UInt32) (m : Manifest) (h : m.Wf) : parse crc (m.bytes crc) = .ok m := by
  have hb : m.header (crc (m.header 0)) ++ (Utf8.encode m.name ++ m.bitmap) = m.bytes crc := by
    rw [bytes, List.append_assoc]
  obtain ⟨h1, h2, h3, h4, h5, h6, h7, h8, h9⟩ := header_fields m (crc (m.header 0)) (Utf8.encode m.name ++ m.bitmap)
  rw [hb] at h1 h2 h3 h4 h5 h6 h7 h8 h9
  rw [Nat.mod_eq_of_lt h.name] at h6
  have hdrop : (m.bytes crc).drop (MANIFEST_HEADER_LEN + (Utf8.encode m.name).length) = m.bitmap := by
    rw [← List.drop_drop, h9, List.drop_left]
  have hlen : (m.bytes crc).length = MANIFEST_HEADER_LEN + (Utf8.encode m.name).length + bitmapLen m.numChunks := by
    simp [bytes, h.bitmap, Nat.add_assoc]
  have hname : Utf8.decodeLossy ((Utf8.encode m.name ++ m.bitmap).take (Utf8.encode m.name).length) = m.name := by
    rw [List.take_left, Utf8.decodeLossy_encode]
  have hbm : m.bitmap.take (bitmapLen m.numChunks) = m.bitmap := List.take_of_length_le (by rw [h.bitmap])
  unfold parse
  rw [if_neg (by rw [hlen]; omega), if_neg (not_not.2 h1), if_neg (not_not.2 h2)]
  simp only [h3, h4, h5, h6, h7, h8, h9]
  rw [hlen, if_neg (not_not.2 rfl), if_neg (Nat.lt_irrefl _), hdrop, hname, hbm]

/-! ## Opening and saving -/

/-- What `Manifest::open` does with the file, once read. -/
def openCont (crc : Bytes → UInt32) (id : FileId) : Except IoError Bytes → Fs Manifest
  | .error .notFound => .err (.notFound (.held (.manifest id)))
  | .error e         => .err (.io e)
  | .ok buf          =>
    match parse crc buf with
    | .ok m    => .ret m
    | .error e => .err e

/-- `Manifest::open` on `manifest_path(id)`. -/
def «open» (crc : Bytes → UInt32) (id : FileId) : Fs Manifest := .call (.read (.manifest id)) (openCont crc id)

/-- `Manifest::save`: write a temporary file, sync it, rename it over the sidecar. -/
def save (crc : Bytes → UInt32) (id : FileId) (m : Manifest) : Fs Unit := do
  io (.create (.manifestTmp id))
  io (.writeAt (.manifestTmp id) 0 (m.bytes crc))
  io (.sync (.manifestTmp id))
  io (.renameHeld (.manifestTmp id) (.manifest id))

def create (crc : Bytes → UInt32) (id : FileId) (chunkPayloadSize numChunks : UInt32) (name : List Char) :
    Fs Manifest := do
  let m : Manifest := ⟨chunkPayloadSize, numChunks, 0, name, List.replicate (bitmapLen numChunks) 0⟩
  save crc id m
  pure m

/-- The disk after a save: the new sidecar is in place and no temporary file is left. -/
def saved (crc : Bytes → UInt32) (id : FileId) (m : Manifest) (d : Disk) : Disk :=
  (d.del (.manifestTmp id)).put (.manifest id) (m.bytes crc)

theorem exec_open_none {crc : Bytes → UInt32} {id : FileId} {d : Disk} (h : d.get (.manifest id) = none) :
    (Manifest.open crc id).exec d = (.err (.notFound (.held (.manifest id))), d) := by
  have hs : FsCall.sem (.read (.manifest id)) d = (.error .notFound, d) := by simp only [FsCall.sem, h]
  show (openCont crc id (FsCall.sem (.read (.manifest id)) d).1).exec (FsCall.sem (.read (.manifest id)) d).2 = _
  rw [hs]
  rfl

theorem exec_open_some {crc : Bytes → UInt32} {id : FileId} {d : Disk} {m : Manifest} {buf : Bytes}
    (h : d.get (.manifest id) = some buf) (hm : parse crc buf = .ok m) : (Manifest.open crc id).exec d = (.ok m, d) := by
  have hs : FsCall.sem (.read (.manifest id)) d = (.ok buf, d) := by simp only [FsCall.sem, h]
  show (openCont crc id (FsCall.sem (.read (.manifest id)) d).1).exec (FsCall.sem (.read (.manifest id)) d).2 = _
  rw [hs]
  simp only [openCont, hm, Calls.exec_ret]

/-- The temporary file, renamed over the sidecar. -/
theorem renamed_eq_saved (crc : Bytes → UInt32) (id : FileId) (m : Manifest) (d : Disk) (b : Bytes) :
    ((d.put (.manifestTmp id) b).del (.manifestTmp id)).put (.manifest id) (m.bytes crc) = m.saved crc id d := by
  refine Disk.ext_get (fun f => ?_) (fun _ => rfl) rfl
  by_cases hf : f = .manifest id
  · subst hf; simp [saved]
  · rw [Disk.get_put_ne _ _ hf, saved, Disk.get_put_ne _ _ hf]
    by_cases ht : f = .manifestTmp id
    · subst ht; simp
    · rw [Disk.get_del_ne _ ht, Disk.get_put_ne _ _ ht, Disk.get_del_ne _ ht]

theorem exec_save (crc : Bytes → UInt32) (id : FileId) (m : Manifest) (d : Disk) :
    (m.save crc id).exec d = (.ok (), m.saved crc id d) := by
  rw [save, Calls.exec_bind, exec_create, Calls.andThen_ok, Calls.exec_bind,
    exec_writeAt (Disk.get_put_self _ _ _) (Nat.zero_le _), Calls.andThen_ok, Calls.exec_bind, exec_sync, Calls.andThen_ok,
    exec_renameHeld (Disk.get_put_self _ _ _), Blob.writeAt_nil_zero, Disk.put_put, renamed_eq_saved]

@[simp] theorem get_saved_self (crc : Bytes → UInt32) (id : FileId) (m : Manifest) (d : Disk) :
    (m.saved crc id d).get (.manifest id) = some (m.bytes crc) := by simp [saved]

@[simp] theorem get_saved_incoming (crc : Bytes → UInt32) (id j : FileId) (m : Manifest) (d : Disk) :
    (m.saved crc id d).get (.incoming j) = d.get (.incoming j) := by
  rw [saved, Disk.get_put_ne _ _ (by simp), Disk.get_del_ne _ (by simp)]

theorem saved_saved (crc : Bytes → UInt32) (id : FileId) (m m' : Manifest) (d : Disk) :
    m'.saved crc id (m.saved crc id d) = m'.saved crc id d := by
  refine Disk.ext_get (fun f => ?_) (fun _ => rfl) rfl
  by_cases hf : f = .manifest id
  · rw [hf, get_saved_self, get_saved_self]
  · unfold saved
    rw [Disk.get_put_ne _ _ hf, Disk.get_put_ne _ _ hf]
    by_cases ht : f = .manifestTmp id
    · rw [ht, Disk.get_del_self, Disk.get_del_self]
    · rw [Disk.get_del_ne _ ht, Disk.get_put_ne _ _ hf]

/-! ## Opening and saving under strikes -/

section

variable {crc : Bytes → UInt32} {id : FileId} {d : Disk} {may : FsCall → Calls.Strike → Disk → Prop}

/-- The rules of `open`, on a sidecar that is not there and on one that can be read. -/
theorem wp_open_none {Q : Res Error Manifest → Disk → Prop} (h : d.get (.manifest id) = none)
    (hfail : ∀ n, may (.read (.manifest id)) (.fail n) d → Q (.err (.io .other)) d)
    (hcrash : ∀ n, may (.read (.manifest id)) (.crash n) d → Q .crash d)
    (hQ : Q (.err (.notFound (.held (.manifest id)))) d) : (Manifest.open crc id).wp may Q d := by
  refine ⟨?_, hfail, hcrash⟩
  have hsem : FsCall.sem (.read (.manifest id)) d = (.error .notFound, d) := by simp only [FsCall.sem, h]
  show Calls.Prog.wp _ (openCont crc id (FsCall.sem (.read (.manifest id)) d).1) _ (FsCall.sem (.read (.manifest id)) d).2
  rw [hsem]
  exact hQ

theorem wp_open_some {Q : Res Error Manifest → Disk → Prop} {buf : Bytes} {m : Manifest}
    (h : d.get (.manifest id) = some buf) (hp : parse crc buf = .ok m)
    (hfail : ∀ n, may (.read (.manifest id)) (.fail n) d → Q (.err (.io .other)) d)
    (hcrash : ∀ n, may (.read (.manifest id)) (.crash n) d → Q .crash d)
    (hQ : Q (.ok m) d) : (Manifest.open crc id).wp may Q d := by
  refine ⟨?_, hfail, hcrash⟩
  have hsem : FsCall.sem (.read (.manifest id)) d = (.ok buf, d) := by simp only [FsCall.sem, h]
  show Calls.Prog.wp _ (openCont crc id (FsCall.sem (.read (.manifest id)) d).1) _ (FsCall.sem (.read (.manifest id)) d).2
  rw [hsem]
  simp only [openCont, hp]
  exact hQ

/-- **The rule of `save`**: wherever it is struck, nothing but the temporary file has changed. -/
theorem wp_saved {Q : Res Error Unit → Disk → Prop} {m : Manifest}
    (hcut : ∀ d', (∀ f, f ≠ .manifestTmp id → d'.get f = d.get f) → Q (.err (.io .other)) d' ∧ Q .crash d')
    (hnew : Q (.ok ()) (m.saved crc id d)) : (m.save crc id).wp may Q d := by
  have hold := hcut d (fun _ _ => rfl)
  have htmp : ∀ b, Q (.err (.io .other)) (d.put (.manifestTmp id) b) ∧ Q .crash (d.put (.manifestTmp id) b) :=
    fun b => hcut _ (fun f hf => Disk.get_put_ne _ _ hf)
  unfold save
  rw [Calls.wp_bind]
  refine wp_io ?_ (fun n _ => hold.1) (fun n _ => hold.2)
  show Calls.Prog.wp _ _ _ (d.put (.manifestTmp id) [])
  rw [Calls.wp_bind]
  have htorn : ∀ n, FsCall.torn (.writeAt (.manifestTmp id) 0 (m.bytes crc)) n (d.put (.manifestTmp id) []) =
      d.put (.manifestTmp id) (Blob.writeAt [] 0 ((m.bytes crc).take n)) := by
    intro n
    simp only [FsCall.torn, Disk.get_put_self, Nat.not_lt_zero, if_false, Disk.put_put]
  refine wp_io ?_ (fun n _ => by rw [htorn]; exact (htmp _).1) (fun n _ => by rw [htorn]; exact (htmp _).2)
  simp only [FsCall.sem, Disk.get_put_self, Nat.not_lt_zero, if_false, Disk.put_put, Blob.writeAt_nil_zero]
  show Calls.Prog.wp _ _ _ (d.put (.manifestTmp id) (m.bytes crc))
  rw [Calls.wp_bind]
  refine wp_io ?_ (fun n _ => (htmp _).1) (fun n _ => (htmp _).2)
  show Calls.Prog.wp _ _ _ (d.put (.manifestTmp id) (m.bytes crc))
  refine wp_io ?_ (fun n _ => (htmp _).1) (fun n _ => (htmp _).2)
  simp only [FsCall.sem, Disk.get_put_self]
  rw [renamed_eq_saved]
  exact hnew

/-- The rule of `save` where only the assembly's own files matter: struck, the old sidecar is in place, and the data file
is not touched. -/
theorem wp_save {Q : Res Error Unit → Disk → Prop} {m : Manifest}
    (hcut : ∀ r d', (∀ u, r ≠ .ok u) → d'.get (.manifest id) = d.get (.manifest id) →
      d'.get (.incoming id) = d.get (.incoming id) → Q r d')
    (hnew : ∀ d', d'.get (.manifest id) = some (m.bytes crc) → d'.get (.incoming id) = d.get (.incoming id) →
      Q (.ok ()) d') : (m.save crc id).wp may Q d := by
  refine wp_saved (fun d' hf => ?_) (hnew _ (get_saved_self crc id m d) (get_saved_incoming crc id id m d))
  have hman := hf (.manifest id) (by simp)
  have hdata := hf (.incoming id) (by simp)
  exact ⟨hcut _ d' (by simp) hman hdata, hcut _ d' (by simp) hman hdata⟩

end

/-! ## The bitmap -/

def isSet (m : Manifest) (chunkId : UInt32) : Bool := Bitmap.getBit m.bitmap chunkId.toNat

def set (m : Manifest) (chunkId : UInt32) : Manifest := { m with bitmap := Bitmap.setBit m.bitmap chunkId.toNat }

/-- `is_complete`: whole bytes first, then the low bits of the last one.  `none` is the panic of a slice past the end
of the bitmap. -/
def isComplete (m : Manifest) : Option Bool :=
  let fullBytes := (m.numChunks / 8).toNat
  if m.bitmap.length < fullBytes then none
  else if (m.bitmap.take fullBytes).any (· != 0xff) then some false
  else
    let leftover := (m.numChunks % 8).toNat
    if leftover ≠ 0 ∧ fullBytes < m.bitmap.length then
      let mask := Bitmap.mask leftover - 1
      some (m.bitmap.getD fullBytes 0 &&& mask == mask)
    else some true

/-- The inner loop of `missing_ranges`: from `i`, the first index at or above it that is `total` or set. -/
def gapEnd (isSet : Nat → Bool) (total : Nat) : Nat → Nat → Nat
  | 0, i        => i
  | fuel + 1, i => if i < total && !isSet i then gapEnd isSet total fuel (i + 1) else i

/-- The outer loop of `missing_ranges`; every turn moves `i` up, so `total` turns are enough. -/
def gaps (isSet : Nat → Bool) (total : Nat) : Nat → Nat → List (Nat × Nat)
  | 0, _        => []
  | fuel + 1, i =>
    if i < total then
      if !isSet i then
        let e := gapEnd isSet total total i
        (i, e - i) :: gaps isSet total fuel e
      else gaps isSet total fuel (i + 1)
    else []

def missingRanges (m : Manifest) : List (UInt32 × UInt32) :=
  (gaps (Bitmap.getBit m.bitmap) m.numChunks.toNat m.numChunks.toNat 0).map
    (fun r => (UInt32.ofNat r.1, UInt32.ofNat r.2))

/-! ## The bitmap as a set of chunk ids -/

/-- The chunks a sidecar marks as written. -/
def has (m : Manifest) (i : Nat) : Bool := Bitmap.getBit m.bitmap i

theorem toNat_bitmapLen {n : UInt32} (h : n.toNat ≤ 2 ^ 32 - 8) : bitmapLen n = (n.toNat + 7) / 8 := by
  rw [bitmapLen, UInt32.toNat_div, UInt32.toNat_add, Nat.mod_eq_of_lt]
  · rfl
  · show n.toNat + 7 < 2 ^ 32
    omega

theorem has_replicate (n i : Nat) : Bitmap.getBit (List.replicate n 0) i = false := by
  have h0 : (List.replicate n (0 : UInt8)).getD (i / 8) 0 = 0 := by
    rw [List.getD_eq_getElem?_getD, List.getElem?_replicate]
    split <;> rfl
  rw [Bitmap.getBit_eq, h0]
  exact Nat.zero_testBit _

/-- **Completeness**: the byte-wise test of `is_complete` is that every chunk is marked, whatever the padding. -/
theorem isComplete_of_length (m : Manifest) (hw : m.bitmap.length = (m.numChunks.toNat + 7) / 8) :
    m.isComplete = some (decide (∀ i, i < m.numChunks.toNat → m.has i = true)) := by
  have hfull : (m.numChunks / 8).toNat = m.numChunks.toNat / 8 := UInt32.toNat_div ..
  have hleft : (m.numChunks % 8).toNat = m.numChunks.toNat % 8 := UInt32.toNat_mod ..
  have hbytes := Bitmap.all_bits_byte m.bitmap (m.numChunks.toNat / 8) (by omega)
  have hany : (m.bitmap.take (m.numChunks.toNat / 8)).any (· != 0xff) =
      !(m.bitmap.take (m.numChunks.toNat / 8)).all (· == 0xff) := by
    rw [List.not_all_eq_any_not]; rfl
  unfold isComplete has
  simp only [hfull, hleft]
  generalize m.numChunks.toNat = n at *
  rw [if_neg (by omega), hany]
  split
  · rename_i hf
    -- a whole byte is not `0xff`: some chunk below it is not marked
    rw [Bool.not_eq_true', ← Bool.not_eq_true, hbytes] at hf
    rw [decide_eq_false (fun h => hf (fun i hi => h i (by omega)))]
  · rename_i hf
    rw [Bool.not_eq_true, Bool.not_eq_false', hbytes] at hf
    split
    · rename_i hl
      have hmask := Bitmap.all_bits_masked (m.bitmap.getD (n / 8) 0) (Nat.mod_lt n (by decide : 0 < 8))
      congr 1
      rw [Bool.eq_iff_iff, hmask, decide_eq_true_iff]
      constructor
      · intro h i hi
        by_cases h8 : i < 8 * (n / 8)
        · exact hf i h8
        · have := h (i % 8) (by omega)
          rwa [Bitmap.getBit_eq, show i / 8 = n / 8 by omega]
      · intro h k hk
        have := h (8 * (n / 8) + k) (by omega)
        rwa [Bitmap.getBit_eq, show (8 * (n / 8) + k) / 8 = n / 8 by omega,
          show (8 * (n / 8) + k) % 8 = k by omega] at this
    · rename_i hl
      rw [decide_eq_true (fun i hi => hf i (by omega))]

theorem isComplete_eq (m : Manifest) (hw : m.bitmap.length = bitmapLen m.numChunks)
    (hn : m.numChunks.toNat ≤ 2 ^ 32 - 8) :
    m.isComplete = some (decide (∀ i, i < m.numChunks.toNat → m.has i = true)) :=
  m.isComplete_of_length (by rw [hw, toNat_bitmapLen hn])

/-! ## The missing ranges -/

section
variable {isSet : Nat → Bool} {total : Nat}

theorem gapEnd_spec : ∀ (fuel i : Nat), i ≤ total → total - i ≤ fuel →
    i ≤ gapEnd isSet total fuel i ∧ gapEnd isSet total fuel i ≤ total ∧
    (∀ j, i ≤ j → j < gapEnd isSet total fuel i → isSet j = false) ∧
    (gapEnd isSet total fuel i = total ∨ isSet (gapEnd isSet total fuel i) = true)
  | 0, i, hi, hf => by
    have h0 : i = total := by omega
    exact ⟨Nat.le_refl _, hi, fun j hj hj' => absurd hj' (Nat.not_lt.2 hj), .inl h0⟩
  | fuel + 1, i, hi, hf => by
    rw [gapEnd]
    split
    · rename_i hc
      simp only [Bool.and_eq_true, decide_eq_true_eq, Bool.not_eq_true'] at hc
      obtain ⟨h1, h2, h3, h4⟩ := gapEnd_spec fuel (i + 1) hc.1 (by omega)
      refine ⟨by omega, h2, fun j hj hj' => ?_, h4⟩
      by_cases he : j = i
      · rw [he]; exact hc.2
      · exact h3 j (by omega) hj'
    · rename_i hc
      refine ⟨Nat.le_refl _, hi, fun j hj hj' => absurd hj' (Nat.not_lt.2 hj), ?_⟩
      by_cases ht : i < total
      · right
        simpa [ht] using hc
      · left; omega

theorem lt_gapEnd {i : Nat} (hi : i < total) (h : isSet i = false) : i < gapEnd isSet total total i := by
  obtain ⟨h1, h2, h3, h4⟩ := @gapEnd_spec isSet total total i (Nat.le_of_lt hi) (Nat.sub_le _ _)
  rcases Nat.lt_or_eq_of_le h1 with hlt | heq
  · exact hlt
  · rw [← heq, h] at h4
    rcases h4 with h4 | h4
    · omega
    · cases h4

/-- **Every range of the loop** lies between where it starts and the total, and is not empty. -/
theorem gaps_bounds : ∀ (fuel i : Nat) (r : Nat × Nat), r ∈ gaps isSet total fuel i →
    i ≤ r.1 ∧ 0 < r.2 ∧ r.1 + r.2 ≤ total
  | 0, i, r, h => by simp [gaps] at h
  | fuel + 1, i, r, h => by
    rw [gaps] at h
    split at h
    · rename_i hi
      split at h
      · rename_i hs
        have hs' : isSet i = false := by simpa using hs
        have hlt := lt_gapEnd hi hs'
        obtain ⟨-, h2, -, -⟩ := @gapEnd_spec isSet total total i (Nat.le_of_lt hi) (Nat.sub_le _ _)
        rcases List.mem_cons.1 h with rfl | h
        · exact ⟨Nat.le_refl _, by omega, by show i + (_ - i) ≤ total; omega⟩
        · have := gaps_bounds fuel _ r h
          exact ⟨by omega, this.2⟩
      · have := gaps_bounds fuel _ r h
        exact ⟨by omega, this.2⟩
    · simp at h

/-- The loop starts a range at a clear bit. -/
theorem gaps_clear : ∀ (fuel i : Nat) (r : Nat × Nat), r ∈ gaps isSet total fuel i → isSet r.1 = false
  | 0, i, r, h => by simp [gaps] at h
  | fuel + 1, i, r, h => by
    rw [gaps] at h
    split at h
    · split at h
      · rename_i hs
        rcases List.mem_cons.1 h with rfl | h
        · simpa using hs
        · exact gaps_clear fuel _ r h
      · exact gaps_clear fuel _ r h
    · simp at h

/-- The ranges of the loop ascend, and a set bit lies between one and the next. -/
theorem pairwise_gaps : ∀ (fuel i : Nat), (gaps isSet total fuel i).Pairwise (fun r s => r.1 + r.2 < s.1)
  | 0, i => .nil
  | fuel + 1, i => by
    rw [gaps]
    split
    · rename_i hi
      split
      · rename_i hs
        have hlt := lt_gapEnd hi (by simpa using hs)
        obtain ⟨-, -, -, hstop⟩ := @gapEnd_spec isSet total total i (Nat.le_of_lt hi) (Nat.sub_le _ _)
        refine .cons (fun s hmem => ?_) (pairwise_gaps fuel _)
        obtain ⟨hle, hpos, hend⟩ := gaps_bounds _ _ _ hmem
        have hne : gapEnd isSet total total i ≠ s.1 := fun he => by
          rw [he, gaps_clear _ _ _ hmem] at hstop
          rcases hstop with hstop | hstop
          · omega
          · cases hstop
        show i + (_ - i) < s.1
        omega
      · exact pairwise_gaps fuel _
    · exact .nil

/-- **The ranges of the loop cover exactly the clear bits.** -/
theorem mem_gaps : ∀ (fuel i : Nat), total - i ≤ fuel → ∀ j,
    (∃ r ∈ gaps isSet total fuel i, r.1 ≤ j ∧ j < r.1 + r.2) ↔ i ≤ j ∧ j < total ∧ isSet j = false
  | 0, i, hf, j => by
    simp only [gaps, List.not_mem_nil, false_and, exists_false, false_iff, not_and]
    omega
  | fuel + 1, i, hf, j => by
    rw [gaps]
    split
    · rename_i hi
      split
      · rename_i hs
        have hs' : isSet i = false := by simpa using hs
        have hlt := lt_gapEnd hi hs'
        obtain ⟨-, h2, h3, h4⟩ := @gapEnd_spec isSet total total i (Nat.le_of_lt hi) (Nat.sub_le _ _)
        have ih := mem_gaps fuel (gapEnd isSet total total i) (by omega) j
        simp only [List.mem_cons, exists_eq_or_imp, ih]
        constructor
        · rintro (⟨hj1, hj2⟩ | ⟨hj1, hj2⟩)
          · exact ⟨hj1, by omega, h3 j hj1 (by omega)⟩
          · exact ⟨by omega, hj2⟩
        · rintro ⟨hj1, hj2⟩
          by_cases hj : j < gapEnd isSet total total i
          · exact .inl ⟨hj1, by omega⟩
          · exact .inr ⟨by omega, hj2⟩
      · rename_i hs
        have hs' : isSet i = true := by simpa using hs
        rw [mem_gaps fuel (i + 1) (by omega) j]
        constructor
        · rintro ⟨hj1, hj2⟩
          exact ⟨by omega, hj2⟩
        · rintro ⟨hj1, hj2, hj3⟩
          have hne : j ≠ i := fun h => by rw [h, hs'] at hj3; cases hj3
          exact ⟨by omega, hj2, hj3⟩
    · simp only [List.not_mem_nil, false_and, exists_false, false_iff, not_and]
      omega

/-- **The loop lists the runs of the clear bits.** -/
theorem isRuns_gaps : Runs.IsRuns (fun j => j < total ∧ isSet j = false) (gaps isSet total total 0) where
  pos r hr := (gaps_bounds _ _ r hr).2.1
  apart := pairwise_gaps _ _
  cover j := by
    unfold Runs.In
    rw [mem_gaps total 0 (Nat.sub_le _ _) j]
    simp

end

/-- A range of `u32`s as one of numbers. -/
def rangeNat (r : UInt32 × UInt32) : Nat × Nat := (r.1.toNat, r.2.toNat)

theorem rangeNat_injective : Function.Injective rangeNat := fun r s h => by
  rw [rangeNat, rangeNat, Prod.mk.injEq, UInt32.toNat_inj, UInt32.toNat_inj] at h
  exact Prod.ext h.1 h.2

/-- No bound of a range is lost in a `u32`. -/
theorem map_missingRanges (m : Manifest) :
    m.missingRanges.map rangeNat = gaps (Bitmap.getBit m.bitmap) m.numChunks.toNat m.numChunks.toNat 0 := by
  unfold missingRanges
  rw [List.map_map]
  refine (List.map_congr_left (fun r hr => ?_)).trans (List.map_id _)
  obtain ⟨-, h2, h3⟩ := gaps_bounds _ _ _ hr
  have hlt := m.numChunks.toNat_lt
  rw [Function.comp, rangeNat, UInt32.toNat_ofNat', UInt32.toNat_ofNat', Nat.mod_eq_of_lt (by omega),
    Nat.mod_eq_of_lt (by omega)]
  rfl

/-- A chunk of the file that is not marked. -/
abbrev Lacks (m : Manifest) (i : Nat) : Prop := i < m.numChunks.toNat ∧ m.has i = false

/-- **The missing ranges are the runs of the chunks that are not marked.** -/
theorem isRuns_missingRanges (m : Manifest) : Runs.IsRuns m.Lacks (m.missingRanges.map rangeNat) := by
  rw [map_missingRanges]
  exact isRuns_gaps

theorem missingRanges_of_clear {m : Manifest} (hpos : 0 < m.numChunks.toNat)
    (h : ∀ i, i < m.numChunks.toNat → m.has i = false) : m.missingRanges = [(0, m.numChunks)] := by
  obtain ⟨n, hn⟩ := Nat.exists_eq_add_one_of_ne_zero (Nat.ne_of_gt hpos)
  have hclear : ∀ i, i < n + 1 → Bitmap.getBit m.bitmap i = false := fun i hi => h i (by rw [hn]; exact hi)
  have hend : gapEnd (Bitmap.getBit m.bitmap) (n + 1) (n + 1) 0 = n + 1 := by
    obtain ⟨-, hle, -, hstop⟩ := @gapEnd_spec (Bitmap.getBit m.bitmap) (n + 1) (n + 1) 0 (Nat.zero_le _) (Nat.sub_le _ _)
    rcases hstop with hstop | hstop
    · exact hstop
    · rcases Nat.lt_or_eq_of_le hle with hlt | heq
      · rw [hclear _ hlt] at hstop
        cases hstop
      · exact heq
  have hrest : gaps (Bitmap.getBit m.bitmap) (n + 1) n (n + 1) = [] := by
    cases n with
    | zero => rfl
    | succ n => rw [gaps, if_neg (Nat.lt_irrefl _)]
  unfold missingRanges
  rw [hn, gaps, if_pos (Nat.succ_pos n), hclear 0 (Nat.succ_pos n), Bool.not_false, if_pos rfl]
  dsimp only
  rw [hend, hrest, Nat.sub_zero, ← hn]
  simp

/-- **A missing range** is not empty and lies within the file. -/
theorem missingRanges_bounds {m : Manifest} {r : UInt32 × UInt32} (h : r ∈ m.missingRanges) :
    0 < r.2.toNat ∧ r.1.toNat + r.2.toNat ≤ m.numChunks.toNat := by
  have hmem : rangeNat r ∈ m.missingRanges.map rangeNat := List.mem_map_of_mem h
  rw [map_missingRanges] at hmem
  exact (gaps_bounds _ _ _ hmem).2

theorem nodup_missingRanges (m : Manifest) : m.missingRanges.Nodup := m.isRuns_missingRanges.nodup.of_map _

/-- **No two missing ranges share a chunk.** -/
theorem missingRanges_disjoint (m : Manifest) {r s : UInt32 × UInt32} (hr : r ∈ m.missingRanges) (hs : s ∈ m.missingRanges)
    {i : Nat} (hir : r.1.toNat ≤ i ∧ i < r.1.toNat + r.2.toNat) (his : s.1.toNat ≤ i ∧ i < s.1.toNat + s.2.toNat) :
    r = s :=
  rangeNat_injective (m.isRuns_missingRanges.disjoint (List.mem_map_of_mem hr) (List.mem_map_of_mem hs) hir his)

/-- **A chunk lies in a missing range exactly when it is not marked.** -/
theorem mem_missingRanges (m : Manifest) (i : Nat) :
    (∃ r ∈ m.missingRanges, r.1.toNat ≤ i ∧ i < r.1.toNat + r.2.toNat) ↔ i < m.numChunks.toNat ∧ m.has i = false := by
  have hcover := m.isRuns_missingRanges.cover i
  simpa [Runs.In, rangeNat] using hcover

theorem missingRanges_eq_nil (m : Manifest) :
    m.missingRanges = [] ↔ ∀ i, i < m.numChunks.toNat → m.has i = true := by
  have hnil := m.isRuns_missingRanges.eq_nil_iff
  simpa [Lacks] using hnil

end Manifest

end Parachuter
