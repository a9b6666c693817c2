import Mathlib.Data.Finmap
import Parachuter.Basic
import Parachuter.Lib.Calls
/-!
# The ground's disk and the file-system calls of the reassembler

Two directories: the holding directory, flat, and the tree at and below the final directory.  They are disjoint, and
may lie on two file systems, in which case no rename crosses from one to the other (`sameFs`).  `FsCall` lists the
calls the reassembler makes; `FsCall.sem` is their full effect, `FsCall.torn` what a call interrupted after `cut`
units leaves behind: a write or a copy leaves a prefix, `create_dir_all` some of the directories, and everything else
is atomic.
-/
namespace Parachuter

open Blob (Bytes)

inductive Node
  | dir
  | file (contents : Bytes)
  deriving DecidableEq, Repr

structure Disk where
  holding : Finmap (fun _ : HoldingFile => Bytes)
  tree    : Finmap (fun _ : Path => Node)
  sameFs  : Bool

namespace Disk

def get (d : Disk) (f : HoldingFile) : Option Bytes := d.holding.lookup f
def put (d : Disk) (f : HoldingFile) (b : Bytes) : Disk := { d with holding := d.holding.insert f b }
def del (d : Disk) (f : HoldingFile) : Disk := { d with holding := d.holding.erase f }
def node (d : Disk) (p : Path) : Option Node := d.tree.lookup p
def putFile (d : Disk) (p : Path) (b : Bytes) : Disk := { d with tree := d.tree.insert p (.file b) }

/-- `mkdir` of each listed path that is not there yet. -/
def mkdirs (d : Disk) (ps : List Path) : Disk := { d with tree := ps.foldl (fun t p => t.insert p .dir) d.tree }

/-- The directories as `Reassembler::new` leaves them: nothing in holding, and no file at or below the final
directory. -/
def fresh (finals : Path) (sameFs : Bool) : Disk :=
  Disk.mkdirs ⟨∅, ∅, sameFs⟩ finals.inits

def isFile (d : Disk) (p : Path) : Bool := match d.node p with | some (.file _) => true | _ => false

/-- A file may be created at `p`: no directory is in its place, and its parent is a directory. -/
def mayCreate (d : Disk) (p : Path) : Bool :=
  (match d.node p with | some .dir => false | _ => true) &&
  (match d.node p.dropLast with | some .dir => true | _ => false)

end Disk

inductive FsCall
  | read (f : HoldingFile)
  | create (f : HoldingFile)
  | openData (f : HoldingFile)
  | length (f : HoldingFile)
  | setLen (f : HoldingFile) (n : Nat)
  | writeAt (f : HoldingFile) (off : Nat) (w : Bytes)
  | sync (f : HoldingFile)
  | renameHeld (src dst : HoldingFile)
  | createDirAll (p : Path)
  | rename (f : HoldingFile) (dest : Path)
  | copy (f : HoldingFile) (dest : Path)
  | remove (f : HoldingFile)

namespace FsCall

abbrev Ret : FsCall → Type
  | .read _   => Bytes
  | .length _ => Nat
  | _         => Unit

/-- The largest file offset, `off_t::MAX`. -/
def OFFSET_MAX : Nat := 2 ^ 63 - 1

def sem : (c : FsCall) → Disk → Except IoError (Ret c) × Disk
  | .read f, d =>
    match d.get f with
    | none   => (.error .notFound, d)
    | some b => (.ok b, d)
  | .create f, d => (.ok (), d.put f [])
  | .openData f, d =>
    match d.get f with
    | none   => (.ok (), d.put f [])
    | some _ => (.ok (), d)
  | .length f, d =>
    match d.get f with
    | none   => (.error .notFound, d)
    | some b => (.ok b.length, d)
  | .setLen f n, d =>
    match d.get f with
    | none   => (.error .notFound, d)
    | some b => if OFFSET_MAX < n then (.error .other, d) else (.ok (), d.put f (Blob.setLen b n))
  | .writeAt f off w, d =>
    match d.get f with
    | none   => (.error .notFound, d)
    | some b => if OFFSET_MAX < off then (.error .other, d) else (.ok (), d.put f (Blob.writeAt b off w))
  | .sync _, d => (.ok (), d)
  | .renameHeld src dst, d =>
    match d.get src with
    | none   => (.error .notFound, d)
    | some b => (.ok (), (d.del src).put dst b)
  | .createDirAll p, d =>
    if p.inits.any d.isFile then (.error .other, d) else (.ok (), d.mkdirs p.inits)
  | .rename f dest, d =>
    match d.get f with
    | none   => (.error .notFound, d)
    | some b => if d.sameFs && d.mayCreate dest then (.ok (), (d.putFile dest b).del f) else (.error .other, d)
  | .copy f dest, d =>
    match d.get f with
    | none   => (.error .notFound, d)
    | some b => if d.mayCreate dest then (.ok (), d.putFile dest b) else (.error .other, d)
  | .remove f, d =>
    match d.get f with
    | none   => (.error .notFound, d)
    | some _ => (.ok (), d.del f)

def torn : FsCall → Nat → Disk → Disk
  | .writeAt f off w, n, d =>
    match d.get f with
    | none   => d
    | some b => if OFFSET_MAX < off then d else d.put f (Blob.writeAt b off (w.take n))
  | .copy f dest, n + 1, d =>
    match d.get f with
    | none   => d
    | some b => if d.mayCreate dest then d.putFile dest (b.take n) else d
  | .createDirAll p, n, d => if p.inits.any d.isFile then d else d.mkdirs (p.inits.take n)
  | _, _, d => d

end FsCall

abbrev fsMachine : Calls.Machine Disk where
  Call  := FsCall
  Ret   := FsCall.Ret
  IoErr := IoError
  sem   := FsCall.sem
  fault := .other
  torn  := FsCall.torn

/-- A function of the reassembler: it makes file-system calls and returns a result, an error or a panic. -/
abbrev Fs := Calls.Prog fsMachine Error

/-- The `?` after a call. -/
def ioCont {c : FsCall} : Except IoError (FsCall.Ret c) → Fs (FsCall.Ret c)
  | .ok v    => .ret v
  | .error e => .err (.io e)

/-- A call followed by `?`. -/
def io (c : FsCall) : Fs (FsCall.Ret c) := .call c ioCont

/-! ## Looking things up after an update -/

namespace Disk

@[simp] theorem get_put_self (d : Disk) (f : HoldingFile) (b : Bytes) : (d.put f b).get f = some b := by
  simp [get, put]

theorem get_put_ne {f g : HoldingFile} (d : Disk) (b : Bytes) (h : g ≠ f) : (d.put f b).get g = d.get g := by
  simp [get, put, Finmap.lookup_insert_of_ne _ h]

@[simp] theorem get_del_self (d : Disk) (f : HoldingFile) : (d.del f).get f = none := by
  simp [get, del]

theorem get_del_ne {f g : HoldingFile} (d : Disk) (h : g ≠ f) : (d.del f).get g = d.get g := by
  simp [get, del, Finmap.lookup_erase_ne h]

@[simp] theorem get_putFile (d : Disk) (p : Path) (b : Bytes) (f : HoldingFile) : (d.putFile p b).get f = d.get f := rfl
@[simp] theorem get_mkdirs (d : Disk) (ps : List Path) (f : HoldingFile) : (d.mkdirs ps).get f = d.get f := rfl

@[simp] theorem node_putFile_self (d : Disk) (p : Path) (b : Bytes) : (d.putFile p b).node p = some (.file b) := by
  simp [node, putFile]

theorem node_putFile_ne {p q : Path} (d : Disk) (b : Bytes) (h : q ≠ p) : (d.putFile p b).node q = d.node q := by
  simp [node, putFile, Finmap.lookup_insert_of_ne _ h]

theorem node_mkdirs (d : Disk) (ps : List Path) (q : Path) :
    (d.mkdirs ps).node q = if q ∈ ps then some .dir else d.node q := by
  show Finmap.lookup q (ps.foldl (fun t p => t.insert p .dir) d.tree) = _
  unfold node
  generalize d.tree = t
  induction ps generalizing t with
  | nil => simp
  | cons p ps ih =>
    rw [List.foldl_cons, ih]
    by_cases hq : q ∈ ps
    · simp [hq]
    · by_cases hqp : q = p
      · subst hqp; simp [hq]
      · simp [hq, hqp, Finmap.lookup_insert_of_ne _ hqp]

@[ext] theorem ext_get {d e : Disk} (hg : ∀ f, d.get f = e.get f) (hn : ∀ p, d.node p = e.node p)
    (hs : d.sameFs = e.sameFs) : d = e := by
  rcases d with ⟨dh, dt, ds⟩
  rcases e with ⟨eh, et, es⟩
  obtain rfl : dh = eh := Finmap.ext_lookup hg
  obtain rfl : dt = et := Finmap.ext_lookup hn
  obtain rfl : ds = es := hs
  rfl

theorem put_of_get {d : Disk} {f : HoldingFile} {b : Bytes} (h : d.get f = some b) : d.put f b = d := by
  refine ext_get (fun g => ?_) (fun _ => rfl) rfl
  by_cases hg : g = f
  · subst hg; rw [get_put_self, h]
  · exact get_put_ne d b hg

theorem put_put (d : Disk) (f : HoldingFile) (a b : Bytes) : (d.put f a).put f b = d.put f b := by
  refine ext_get (fun g => ?_) (fun _ => rfl) rfl
  by_cases hg : g = f
  · subst hg; rw [get_put_self, get_put_self]
  · rw [get_put_ne _ _ hg, get_put_ne _ _ hg, get_put_ne _ _ hg]

end Disk

/-! ## The calls without faults -/

/-- The result of a call followed by `?`. -/
def ioRes {c : FsCall} : Except IoError (FsCall.Ret c) → Calls.Res Error (FsCall.Ret c)
  | .ok v    => .ok v
  | .error e => .err (.io e)

theorem exec_io {c : FsCall} {d d' : Disk} {r : Except IoError (FsCall.Ret c)} (h : FsCall.sem c d = (r, d')) :
    (io c).exec d = (ioRes r, d') := by
  show (ioCont (FsCall.sem c d).1).exec (FsCall.sem c d).2 = _
  rw [h]
  cases r <;> rfl

section
variable {d : Disk} {f g : HoldingFile} {b : Bytes} {p : Path}

@[simp] theorem exec_create : (io (.create f)).exec d = (.ok (), d.put f []) := rfl
@[simp] theorem exec_sync : (io (.sync f)).exec d = (.ok (), d) := rfl

theorem exec_openData_none (h : d.get f = none) : (io (.openData f)).exec d = (.ok (), d.put f []) :=
  exec_io (c := .openData f) (r := .ok ()) (by simp only [FsCall.sem, h])

theorem exec_openData_some (h : d.get f = some b) : (io (.openData f)).exec d = (.ok (), d) :=
  exec_io (c := .openData f) (r := .ok ()) (by simp only [FsCall.sem, h])

theorem exec_length (h : d.get f = some b) : (io (.length f)).exec d = (.ok b.length, d) :=
  exec_io (c := .length f) (r := .ok b.length) (by simp only [FsCall.sem, h])

theorem exec_setLen {n : Nat} (h : d.get f = some b) (hn : n ≤ FsCall.OFFSET_MAX) :
    (io (.setLen f n)).exec d = (.ok (), d.put f (Blob.setLen b n)) :=
  exec_io (c := .setLen f n) (r := .ok ()) (by simp only [FsCall.sem, h, Nat.not_lt.2 hn, if_false])

theorem exec_writeAt {off : Nat} {w : Bytes} (h : d.get f = some b) (hoff : off ≤ FsCall.OFFSET_MAX) :
    (io (.writeAt f off w)).exec d = (.ok (), d.put f (Blob.writeAt b off w)) :=
  exec_io (c := .writeAt f off w) (r := .ok ()) (by simp only [FsCall.sem, h, Nat.not_lt.2 hoff, if_false])

theorem exec_renameHeld (h : d.get f = some b) : (io (.renameHeld f g)).exec d = (.ok (), (d.del f).put g b) :=
  exec_io (c := .renameHeld f g) (r := .ok ()) (by simp only [FsCall.sem, h])

theorem exec_createDirAll (h : p.inits.any d.isFile = false) :
    (io (.createDirAll p)).exec d = (.ok (), d.mkdirs p.inits) :=
  exec_io (c := .createDirAll p) (r := .ok ()) (by simp only [FsCall.sem, h, Bool.false_eq_true, if_false])

theorem exec_createDirAll_refused (h : p.inits.any d.isFile = true) :
    (io (.createDirAll p)).exec d = (.err (.io .other), d) :=
  exec_io (c := .createDirAll p) (r := .error .other) (by simp only [FsCall.sem, h, if_true])

theorem exec_rename (h : d.get f = some b) (hs : d.sameFs = true) (hc : d.mayCreate p = true) :
    (io (.rename f p)).exec d = (.ok (), (d.putFile p b).del f) :=
  exec_io (c := .rename f p) (r := .ok ()) (by simp only [FsCall.sem, h, hs, hc, Bool.and_self, if_true])

theorem exec_rename_none (h : d.get f = none) : (io (.rename f p)).exec d = (.err (.io .notFound), d) :=
  exec_io (c := .rename f p) (r := .error .notFound) (by simp only [FsCall.sem, h])

/-- No rename across file systems, nor into the place of a directory. -/
theorem exec_rename_refused (h : d.get f = some b) (hn : ¬ (d.sameFs && d.mayCreate p) = true) :
    (io (.rename f p)).exec d = (.err (.io .other), d) :=
  exec_io (c := .rename f p) (r := .error .other) (by simp only [FsCall.sem, h, if_neg hn])

theorem exec_copy (h : d.get f = some b) (hc : d.mayCreate p = true) :
    (io (.copy f p)).exec d = (.ok (), d.putFile p b) :=
  exec_io (c := .copy f p) (r := .ok ()) (by simp only [FsCall.sem, h, hc, if_true])

theorem exec_copy_none (h : d.get f = none) : (io (.copy f p)).exec d = (.err (.io .notFound), d) :=
  exec_io (c := .copy f p) (r := .error .notFound) (by simp only [FsCall.sem, h])

theorem exec_copy_refused (h : d.get f = some b) (hc : ¬ d.mayCreate p = true) :
    (io (.copy f p)).exec d = (.err (.io .other), d) :=
  exec_io (c := .copy f p) (r := .error .other) (by simp only [FsCall.sem, h, if_neg hc])

theorem exec_remove (h : d.get f = some b) : (io (.remove f)).exec d = (.ok (), d.del f) :=
  exec_io (c := .remove f) (r := .ok ()) (by simp only [FsCall.sem, h])

end

theorem keeps_io {P : Disk → Prop} {c : FsCall} (h : ∀ d, P d → P (FsCall.sem c d).2) : (io c).Keeps P Calls.Any := by
  intro d hd
  rw [exec_io rfl]
  exact ⟨h d hd, fun _ _ => trivial⟩

/-! ## The calls under strikes -/

/-- **The rule of a call followed by `?`.** -/
theorem wp_io {may : FsCall → Calls.Strike → Disk → Prop} {c : FsCall} {d : Disk}
    {Q : Calls.Res Error (FsCall.Ret c) → Disk → Prop} (hok : Q (ioRes (FsCall.sem c d).1) (FsCall.sem c d).2)
    (hfail : ∀ n, may c (.fail n) d → Q (.err (.io .other)) (FsCall.torn c n d))
    (hcrash : ∀ n, may c (.crash n) d → Q .crash (FsCall.torn c n d)) : (io c).wp may Q d := by
  refine ⟨?_, hfail, hcrash⟩
  show (ioCont (FsCall.sem c d).1).wp may Q (FsCall.sem c d).2
  cases h : (FsCall.sem c d).1 with
  | ok v => rw [h] at hok; exact hok
  | error e => rw [h] at hok; exact hok

/-- What a call keeps, struck or not. -/
theorem always_io {may : FsCall → Calls.Strike → Disk → Prop} {panics : Prop} {P : Disk → Prop} {c : FsCall}
    (h : ∀ d, P d → P (FsCall.sem c d).2) (ht : ∀ n d, P d → P (FsCall.torn c n d)) :
    (io c).Always may panics P Calls.Any := by
  intro d hd
  refine wp_io ⟨h d hd, ?_⟩ (fun n _ => ⟨ht n d hd, trivial⟩) (fun n _ => ⟨ht n d hd, trivial⟩)
  cases (FsCall.sem c d).1 with
  | ok v => trivial
  | error e => trivial

end Parachuter
