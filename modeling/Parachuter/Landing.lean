import Parachuter.Reconcile
import Parachuter.Sidecars
/-!
# Landing — where files of different names land

`ground_path` drops what is not a plain component, so names that differ in `..` alone land on one path whatever they
denote.  What a name denotes is settled by walking its parts from the root; two names without `..` that land on one path
have the same parts to walk, so they denote one file.  A finalise changes nothing that is a file, and makes nothing a
file, but at the path it publishes.
-/
namespace Parachuter

open Blob (Bytes)
open Calls (Any)

/-! ## What a name denotes -/

/-- A tree of files, as far as looking up a path goes: links may be followed by `child`. -/
structure FileTree (Node : Type) where
  root   : Node
  child  : Node → List Char → Option Node
  parent : Node → Node

namespace FileTree

variable {Node : Type} (fs : FileTree Node)

/-- One part of a path. -/
def enter (n : Node) (part : List Char) : Option Node :=
  if part = [] ∨ part = ['.'] then some n
  else if part = ['.', '.'] then some (fs.parent n)
  else fs.child n part

def walk : Node → List (List Char) → Option Node
  | n, []            => some n
  | n, part :: parts => (fs.enter n part).bind (fun n' => walk n' parts)

/-- The file an absolute path denotes. -/
def denoted (name : Text) : Option Node := fs.walk fs.root (name.splitOn '/')

theorem walk_filter : ∀ (parts : List (List Char)) (n : Node),
    fs.walk n (parts.filter (fun c => c ≠ [] ∧ c ≠ ['.'])) = fs.walk n parts
  | [], _ => rfl
  | part :: parts, n => by
    by_cases h : part = [] ∨ part = ['.']
    · rw [List.filter_cons_of_neg (by simpa [← not_or] using h), walk_filter parts n, walk, enter, if_pos h,
        Option.bind_some]
    · rw [List.filter_cons_of_pos (by simpa [← not_or] using h), walk, walk]
      exact congrArg (Option.bind _) (funext (fun n' => walk_filter parts n'))

theorem denoted_eq (name : Text) : fs.denoted name = fs.walk fs.root (components name) := (fs.walk_filter _ _).symm

end FileTree

/-- A name without `..`. -/
def Straight (name : Text) : Prop := ['.', '.'] ∉ components name

instance (name : Text) : Decidable (Straight name) := inferInstanceAs (Decidable (['.', '.'] ∉ components name))

theorem Straight.normalComponents {name : Text} (h : Straight name) : normalComponents name = components name := by
  unfold Parachuter.normalComponents
  refine List.filter_eq_self.2 (fun c hc => decide_eq_true ?_)
  rintro rfl
  exact h hc

/-- **Straight names that denote different files land on different paths.** -/
theorem groundPath_ne {Node : Type} (fs : FileTree Node) {name₁ name₂ : Text} (h₁ : Straight name₁) (h₂ : Straight name₂)
    (hne : fs.denoted name₁ ≠ fs.denoted name₂) (finals : Path) : groundPath finals name₁ ≠ groundPath finals name₂ := by
  intro heq
  unfold groundPath at heq
  rw [h₁.normalComponents, h₂.normalComponents] at heq
  have hcomp := List.append_cancel_left heq
  rw [fs.denoted_eq, fs.denoted_eq, hcomp] at hne
  exact hne rfl

/-! ## What a finalise does elsewhere -/

/-- A file is at the path exactly where `d` has it. -/
def Disk.SameFile (d : Disk) (q : Path) (d' : Disk) : Prop := ∀ b, d'.node q = some (.file b) ↔ d.node q = some (.file b)

namespace Reassembler

variable {d₀ : Disk} {q dest : Path} {id : FileId}

theorem keeps_createParent : (createParent dest).Keeps (d₀.SameFile q) Any := by
  unfold createParent
  split
  · exact Calls.keeps_ret trivial
  · refine keeps_io (fun d hd b => ?_)
    simp only [FsCall.sem]
    split
    · exact hd b
    · rename_i hfree
      rw [Disk.node_mkdirs]
      -- no file stands where a directory is made
      split
      · rename_i hq
        rw [← hd b]
        refine ⟨fun h => (by cases h), fun h => absurd (List.any_eq_true.2 ⟨q, hq, ?_⟩) hfree⟩
        unfold Disk.isFile
        rw [h]
      · exact hd b

theorem keeps_moveInto (hq : q ≠ dest) : (moveInto id dest).Keeps (d₀.SameFile q) Any := by
  have hput : ∀ {d : Disk} (b : Bytes), d₀.SameFile q d → d₀.SameFile q (d.putFile dest b) := by
    intro d b hd b'
    rw [Disk.node_putFile_ne _ _ hq]
    exact hd b'
  have hrename : (io (.rename (.incoming id) dest)).Keeps (d₀.SameFile q) Any := by
    refine keeps_io (fun d hd => ?_)
    simp only [FsCall.sem]
    split
    · exact hd
    · split
      · exact hput _ hd
      · exact hd
  have hcopy : (io (.copy (.incoming id) dest)).Keeps (d₀.SameFile q) Any := by
    refine keeps_io (fun d hd => ?_)
    simp only [FsCall.sem]
    split
    · exact hd
    · split
      · exact hput _ hd
      · exact hd
  have hremove : (io (.remove (.incoming id))).Keeps (d₀.SameFile q) Any := by
    refine keeps_io (fun d hd => ?_)
    simp only [FsCall.sem]
    split <;> exact hd
  refine Calls.keeps_bind (Calls.keeps_attempt hrename) (fun r _ => ?_)
  split
  · exact Calls.keeps_ret trivial
  · exact Calls.keeps_bind hcopy (fun _ _ => hremove)

theorem keeps_publish (hq : q ≠ dest) : (publish id dest).Keeps (d₀.SameFile q) Any := by
  refine Calls.keeps_bind keeps_createParent (fun _ _ => ?_)
  refine Calls.keeps_bind (keeps_moveInto hq) (fun _ _ => ?_)
  refine Calls.keeps_bind (keeps_io (fun d hd => ?_)) (fun _ _ => Calls.keeps_ret trivial)
  simp only [FsCall.sem]
  split <;> exact hd

/-- **A finalise leaves every other path as it is**, as far as files go. -/
theorem sameFile_finalize {crc : Bytes → UInt32} {finals : Path} {d : Disk} {m : Manifest}
    (hm : d.sidecar crc id = some m) (hq : q ≠ groundPath finals m.name) :
    d.SameFile q ((finalize crc finals id).exec d).2 := by
  have hself : d.SameFile q d := fun _ => Iff.rfl
  obtain ⟨buf, hbuf, hparse⟩ := Disk.sidecar_some hm
  unfold finalize
  rw [Calls.exec_bind, Manifest.exec_open_some hbuf hparse, Calls.andThen_ok]
  split
  · exact hself
  · exact hself
  · split
    · exact hself
    · exact (keeps_publish hq d hself).1

end Reassembler

theorem Reconcile.classify_sameFile {row : SnapshotRow} {finals : Path} {d d' : Disk}
    (h : d.SameFile (groundPath finals row.fileName) d') (ground : GroundState) (now : DateTime) (graceSecs : UInt64) :
    classify row finals d' ground now graceSecs = classify row finals d ground now graceSecs := by
  unfold classify
  cases hn : d.node (groundPath finals row.fileName) with
  | none =>
    split
    · rename_i b hb
      rw [h b, hn] at hb
      cases hb
    · rfl
  | some node =>
    cases node with
    | file b => rw [(h b).2 hn]
    | dir =>
      split
      · rename_i b hb
        rw [h b, hn] at hb
        cases hb
      · rfl

/-- **Straight names that denote different files are kept apart on the ground**: they land on different paths, finalising
one leaves the other's file as it is, and the verdict on the other with it. -/
theorem straight_names_kept_apart {Node : Type} (fs : FileTree Node) (finals : Path) (name₁ name₂ : Text)
    (h₁ : Straight name₁) (h₂ : Straight name₂) (n₁ n₂ : Node) (hn₁ : fs.denoted name₁ = some n₁)
    (hn₂ : fs.denoted name₂ = some n₂) (hne : n₁ ≠ n₂) :
    groundPath finals name₁ ≠ groundPath finals name₂ ∧
    ∀ (crc : Bytes → UInt32) (d : Disk) (id : FileId) (m : Manifest), d.sidecar crc id = some m → m.name = name₁ →
      let d' := ((Reassembler.finalize crc finals id).exec d).2
      (∀ b, d'.node (groundPath finals name₂) = some (.file b) ↔ d.node (groundPath finals name₂) = some (.file b)) ∧
      ∀ (row : SnapshotRow) (ground : GroundState) (now : DateTime) (graceSecs : UInt64), row.fileName = name₂ →
        Reconcile.classify row finals d' ground now graceSecs = Reconcile.classify row finals d ground now graceSecs := by
  have hground := groundPath_ne fs h₁ h₂ (by rw [hn₁, hn₂]; simpa using hne) finals
  refine ⟨hground, fun crc d id m hm hname => ?_⟩
  have hsame := Reassembler.sameFile_finalize (q := groundPath finals name₂) hm (by rw [hname]; exact hground.symm)
  refine ⟨hsame, fun row ground now graceSecs hrow => ?_⟩
  rw [← hrow] at hsame
  exact Reconcile.classify_sameFile hsame ground now graceSecs

/-- A tree without links, in which every path is there. -/
def FileTree.plain : FileTree Path := ⟨[], fun n part => some (n ++ [part]), List.dropLast⟩

/-- A complete assembly under `/a//b` is finalised beside the file of `/a/./c`. -/
theorem straight_names_kept_apart_beside :
    let m : Manifest := ⟨1, 1, 1, "/a//b".toList, [1]⟩
    let d := (((Disk.fresh [] true).putFile ["a".toList, "c".toList] [7]).put (.incoming 1) [5]).put (.manifest 1) (m.bytes crc32)
    let d' := ((Reassembler.finalize crc32 [] 1).exec d).2
    d'.node ["a".toList, "b".toList] = some (.file [5]) ∧ d'.node ["a".toList, "c".toList] = some (.file [7]) := by
  intro m d d'
  have hside : d.sidecar crc32 1 = some m :=
    Disk.sidecar_of (Disk.get_put_self _ _ _) (Manifest.parse_bytes crc32 m ⟨by decide, by decide +kernel⟩)
  have hkept := ((straight_names_kept_apart FileTree.plain [] "/a//b".toList "/a/./c".toList (by decide +kernel)
    (by decide +kernel) ["a".toList, "b".toList] ["a".toList, "c".toList] (by decide +kernel) (by decide +kernel)
    (by decide +kernel)).2 crc32 d 1 m hside rfl).1 [7]
  exact ⟨by decide +kernel, hkept.2 (by decide +kernel)⟩

/-- **`..` is dropped, not followed**: `/a/../b` and `/a/b` denote different files and land on one path. -/
theorem dotdot_names_collide :
    FileTree.plain.denoted "/a/../b".toList = some ["b".toList] ∧
    FileTree.plain.denoted "/a/b".toList = some ["a".toList, "b".toList] ∧
    ∀ finals, groundPath finals "/a/../b".toList = groundPath finals "/a/b".toList := by
  refine ⟨by decide +kernel, by decide +kernel, fun finals => ?_⟩
  have hsame : normalComponents "/a/../b".toList = normalComponents "/a/b".toList := by decide +kernel
  unfold groundPath
  rw [hsame]

end Parachuter
