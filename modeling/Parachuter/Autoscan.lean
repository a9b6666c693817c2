import Parachuter.Downlinked
/-!
# Autoscan — a tree that stands still, scan by scan

A walk from a canonical directory gives every file below it by one and the same path, whichever priority directory it starts
from.  A scan registers the first file by `Before` of those that wait, and its row in the ledger keeps it out of every later
scan; so repeated scans queue the waiting files one by one, in order, and then find nothing.  A file named `.bz2` or `.gz`
and nothing more never gets its turn: what is left of its path without the suffix is its directory, which exists.
-/
namespace Parachuter

open Blob (Bytes)

/-! ## Files and directories -/

/-- What a directory entry can be called. -/
structure EntryName (name : Text) : Prop where
  noSlash : '/' ∉ name
  plain   : name ∉ [[], ['.'], ['.', '.']]

instance (name : Text) : Decidable (EntryName name) :=
  decidable_of_iff ('/' ∉ name ∧ name ∉ [[], ['.'], ['.', '.']]) ⟨fun h => ⟨h.1, h.2⟩, fun h => ⟨h.noSlash, h.plain⟩⟩

/-- The path of an entry, from the names of the directories it is in. -/
def entryPath (dirs : List Text) (name : Text) : Text := dirs.flatMap ('/' :: ·) ++ '/' :: name

/-- The path of a directory, from its names. -/
def dirPath (parts : List Text) : Text := if parts = [] then ['/'] else parts.flatMap ('/' :: ·)

/-- A regular file, with what its metadata say; the times are in nanoseconds since the epoch. -/
structure TreeFile where
  dirs      : List Text
  name      : Text
  size      : UInt64
  createdAt : DateTime
  modified  : DateTime
  deriving DecidableEq, Repr

namespace TreeFile

def path (f : TreeFile) : Text := entryPath f.dirs f.name

/-- The key of the sort: whole seconds since the epoch, 0 if before it. -/
def modifiedSecs (f : TreeFile) : Nat := if f.modified < 0 then 0 else (f.modified / SECOND).toNat

/-- Only the suffix of a compressed file. -/
def Bare (f : TreeFile) : Prop := f.name ∈ [".bz2".toList, ".gz".toList]

instance (f : TreeFile) : Decidable f.Bare := inferInstanceAs (Decidable (_ ∈ _))

end TreeFile

/-- A canonical absolute directory. -/
structure CanonicalDir where
  parts : List Text
  names : ∀ d ∈ parts, EntryName d

namespace CanonicalDir

def path (dir : CanonicalDir) : Text := dirPath dir.parts

/-- The file is at or below it. -/
def Contains (dir : CanonicalDir) (f : TreeFile) : Prop := dir.parts <+: f.dirs

instance (dir : CanonicalDir) (f : TreeFile) : Decidable (dir.Contains f) := inferInstanceAs (Decidable (_ <+: _))

end CanonicalDir

/-- A file tree that stands still: its regular files, one at a path, and the paths that exist, the files and their directories
among them. -/
structure StaticTree where
  files    : List TreeFile
  existing : Text → Bool
  names    : ∀ f ∈ files, (∀ d ∈ f.dirs, EntryName d) ∧ EntryName f.name
  apart    : (files.map TreeFile.path).Nodup
  present  : ∀ f ∈ files, existing f.path = true
  parents  : ∀ f ∈ files, existing (entryPath f.dirs []) = true

namespace StaticTree

/-- What `WalkDir::new` yields of the regular files: each path is the root's with the names below it joined. -/
def walk (t : StaticTree) (dir : CanonicalDir) : List Text :=
  (t.files.filter (fun f => decide (dir.Contains f))).map (fun f =>
    (f.dirs.drop dir.parts.length ++ [f.name]).foldl joinPath dir.path)

/-- A scan of the directory sees the tree, in whatever order it lists the files. -/
structure Shows (t : StaticTree) (dir : CanonicalDir) (v : DirView) : Prop where
  walk     : v.walk.Perm (t.walk dir)
  existing : ∀ p, v.existing p = t.existing p
  modified : ∀ f ∈ t.files, (v.modified f.path).getD 0 = f.modifiedSecs
  metadata : ∀ f ∈ t.files, v.metadata f.path = some (f.size, f.createdAt)

/-- So does a scan of every directory of the list. -/
def Seen (t : StaticTree) (dirs : List CanonicalDir) (view : Nat → Text → DirView) : Prop :=
  ∀ k dir, dirs[k]? = some dir → t.Shows dir (view k dir.path)

/-! ## Which files are taken, and in which order -/

/-- A `.bz2` or `.gz` next to its uncompressed sibling. -/
def CompressedBeside (t : StaticTree) (f : TreeFile) : Prop :=
  ∃ ext ∈ [".bz2".toList, ".gz".toList], ext <:+ f.name ∧ f.name ≠ ext ∧
    t.existing (entryPath f.dirs (f.name.take (f.name.length - ext.length))) = true

instance (t : StaticTree) (f : TreeFile) : Decidable (t.CompressedBeside f) := inferInstanceAs (Decidable (∃ _ ∈ _, _))

/-- In one of the directories, not compressed beside its sibling, and let through by the filters. -/
def Eligible (t : StaticTree) (dirs : List CanonicalDir) (incl skip : List Text) (f : TreeFile) : Prop :=
  (∃ dir ∈ dirs, dir.Contains f) ∧ ¬ t.CompressedBeside f ∧
  (∀ e ∈ skip, Scanner.matchesExtension f.path e = false) ∧
  (incl = [] ∨ ∃ e ∈ incl, Scanner.matchesExtension f.path e = true)

instance (t : StaticTree) (dirs : List CanonicalDir) (incl skip : List Text) (f : TreeFile) :
    Decidable (t.Eligible dirs incl skip f) := inferInstanceAs (Decidable (_ ∧ _ ∧ _ ∧ _))

end StaticTree

/-- The first of the directories that contains the file. -/
def firstDir (dirs : List CanonicalDir) (f : TreeFile) : Nat := dirs.findIdx (fun dir => decide (dir.Contains f))

/-- By first directory, then by modification time in seconds. -/
def Before (dirs : List CanonicalDir) (f g : TreeFile) : Prop :=
  firstDir dirs f < firstDir dirs g ∨ firstDir dirs f = firstDir dirs g ∧ f.modifiedSecs ≤ g.modifiedSecs

instance (dirs : List CanonicalDir) (f g : TreeFile) : Decidable (Before dirs f g) := inferInstanceAs (Decidable (_ ∨ _))

/-! ## Paths -/

theorem joinPath_name {name : Text} (h : EntryName name) (dir : Text) :
    joinPath dir name = if dir = [] ∨ dir.getLast? = some '/' then dir ++ name else dir ++ '/' :: name := by
  unfold joinPath SenderRuntime.absolute
  rw [if_neg (fun hhead => h.noSlash (List.mem_of_head? hhead))]

theorem dirPath_concat (parts : List Text) (d : Text) : dirPath (parts ++ [d]) = entryPath parts d := by
  unfold dirPath entryPath
  rw [if_neg (List.append_ne_nil_of_right_ne_nil _ (List.cons_ne_nil _ _)), List.flatMap_append, List.flatMap_singleton]

theorem EntryName.ne_nil {name : Text} (h : EntryName name) : name ≠ [] := by
  rintro rfl
  exact h.plain List.mem_cons_self

/-- Joining a name to a directory gives the path of that entry. -/
theorem joinPath_dirPath {parts : List Text} (hparts : ∀ d ∈ parts, EntryName d) {name : Text} (hname : EntryName name) :
    joinPath (dirPath parts) name = entryPath parts name := by
  rw [joinPath_name hname]
  rcases parts.eq_nil_or_concat' with rfl | ⟨init, d, rfl⟩
  · rfl
  · have hd : EntryName d := hparts d (List.mem_append_right _ List.mem_cons_self)
    have hlast : (dirPath (init ++ [d])).getLast? ≠ some '/' := by
      rw [dirPath_concat, entryPath, List.getLast?_append_of_ne_nil _ (List.cons_ne_nil _ _), List.getLast?_cons_of_ne_nil hd.ne_nil]
      exact fun h => hd.noSlash (List.mem_of_getLast? h)
    have hne : dirPath (init ++ [d]) ≠ [] := by
      rw [dirPath_concat]
      exact List.append_ne_nil_of_right_ne_nil _ (List.cons_ne_nil _ _)
    rw [if_neg (not_or.2 ⟨hne, hlast⟩), dirPath, if_neg (List.append_ne_nil_of_right_ne_nil _ (List.cons_ne_nil _ _))]
    rfl

/-- **From any directory above it a file is found under the same path.** -/
theorem foldl_joinPath {name : Text} (hname : EntryName name) : ∀ {rest parts : List Text}, (∀ d ∈ parts, EntryName d) →
    (∀ d ∈ rest, EntryName d) → (rest ++ [name]).foldl joinPath (dirPath parts) = entryPath (parts ++ rest) name
  | [], parts, hparts, _ => by
    rw [List.append_nil]
    exact joinPath_dirPath hparts hname
  | d :: rest, parts, hparts, hrest => by
    have hd : EntryName d := hrest d List.mem_cons_self
    have hparts' : ∀ e ∈ parts ++ [d], EntryName e := by
      intro e he
      rcases List.mem_append.1 he with he | he
      · exact hparts e he
      · rw [List.mem_singleton.1 he]
        exact hd
    rw [List.cons_append, List.foldl_cons, joinPath_dirPath hparts hd, ← dirPath_concat,
      foldl_joinPath hname hparts' (fun e he => hrest e (List.mem_cons_of_mem _ he)), List.append_assoc, List.singleton_append]

namespace StaticTree

variable {t : StaticTree}

theorem walk_eq (t : StaticTree) (dir : CanonicalDir) :
    t.walk dir = (t.files.filter (fun f => decide (dir.Contains f))).map TreeFile.path := by
  unfold walk
  refine List.map_congr_left (fun f hf => ?_)
  obtain ⟨hmem, hin⟩ := List.mem_filter.1 hf
  obtain ⟨rest, hrest⟩ : dir.parts <+: f.dirs := of_decide_eq_true hin
  obtain ⟨hdirs, hname⟩ := t.names f hmem
  have hdrop : f.dirs.drop dir.parts.length = rest := by rw [← hrest, List.drop_left]
  rw [hdrop, CanonicalDir.path, foldl_joinPath hname dir.names (fun d hd => hdirs d (by rw [← hrest]; exact List.mem_append_right _ hd)),
    hrest]
  rfl

theorem path_inj {f g : TreeFile} (hf : f ∈ t.files) (hg : g ∈ t.files) (h : f.path = g.path) : f = g :=
  List.inj_on_of_nodup_map t.apart hf hg h

end StaticTree

/-! ## The filters -/

theorem suffix_entryPath {ext : Text} (h : '/' ∉ ext) (dirs : List Text) (name : Text) :
    ext <:+ entryPath dirs name ↔ ext <:+ name := by
  constructor
  · intro hext
    have hname : '/' :: name <:+ entryPath dirs name := List.suffix_append _ _
    rcases List.suffix_or_suffix_of_suffix hext hname with hle | hle
    · rcases List.suffix_cons_iff.1 hle with rfl | hle
      · exact absurd List.mem_cons_self h
      · exact hle
    · exact absurd (hle.subset List.mem_cons_self) h
  · intro hext
    exact hext.trans ((List.suffix_cons _ _).trans (List.suffix_append _ _))

theorem stripSuffix_entryPath {ext : Text} (h : '/' ∉ ext) (dirs : List Text) (name : Text) :
    Scanner.stripSuffix (entryPath dirs name) ext =
      if ext <:+ name then some (entryPath dirs (name.take (name.length - ext.length))) else none := by
  unfold Scanner.stripSuffix
  rw [if_congr (suffix_entryPath h dirs name) rfl rfl]
  split
  · rename_i hext
    have hle := hext.length_le
    have hlen : (entryPath dirs name).length - ext.length =
        (dirs.flatMap ('/' :: ·)).length + (name.length - ext.length + 1) := by
      rw [entryPath, List.length_append, List.length_cons]
      omega
    rw [hlen, entryPath, List.take_length_add_append, List.take_succ_cons]
    rfl
  · rfl

namespace StaticTree

variable {t : StaticTree} {v : DirView} {f : TreeFile}

/-- The suffix that counts is the one the name has, and what is asked about is the path without it. -/
theorem isBeingCompressed_path (hv : ∀ p, v.existing p = t.existing p) (f : TreeFile) :
    Scanner.isBeingCompressed v f.path = true ↔ ∃ ext ∈ [".bz2".toList, ".gz".toList], ext <:+ f.name ∧
      t.existing (entryPath f.dirs (f.name.take (f.name.length - ext.length))) = true := by
  unfold Scanner.isBeingCompressed TreeFile.path
  rw [stripSuffix_entryPath (by decide), stripSuffix_entryPath (by decide)]
  simp only [List.mem_cons, List.not_mem_nil, or_false, exists_eq_or_imp, exists_eq_left]
  by_cases hbz : ".bz2".toList <:+ f.name
  · have hgz : ¬ ".gz".toList <:+ f.name := by
      intro hgz
      rcases List.suffix_or_suffix_of_suffix hbz hgz with hle | hle
      · exact absurd hle (by decide)
      · exact absurd hle (by decide)
    rw [if_pos hbz]
    dsimp only
    rw [hv, and_iff_right hbz, or_iff_left (fun h => hgz h.1)]
  · rw [if_neg hbz, or_iff_right (fun h => hbz h.1)]
    dsimp only
    by_cases hgz : ".gz".toList <:+ f.name
    · rw [if_pos hgz]
      dsimp only
      rw [hv, and_iff_right hgz]
    · rw [if_neg hgz]
      exact ⟨fun h => absurd h Bool.false_ne_true, fun h => absurd h.1 hgz⟩

/-- **What the scan takes for a file being compressed**: one beside its sibling, and one whose name is only the suffix, since
its directory exists. -/
theorem isBeingCompressed_iff (hv : ∀ p, v.existing p = t.existing p) (hf : f ∈ t.files) :
    Scanner.isBeingCompressed v f.path = true ↔ t.CompressedBeside f ∨ f.Bare := by
  rw [isBeingCompressed_path hv]
  constructor
  · rintro ⟨ext, hmem, hsuffix, hexists⟩
    by_cases hname : f.name = ext
    · refine .inr ?_
      unfold TreeFile.Bare
      rw [hname]
      exact hmem
    · exact .inl ⟨ext, hmem, hsuffix, hname, hexists⟩
  · rintro (⟨ext, hmem, hsuffix, -, hexists⟩ | hbare)
    · exact ⟨ext, hmem, hsuffix, hexists⟩
    · refine ⟨f.name, hbare, List.suffix_refl _, ?_⟩
      rw [Nat.sub_self, List.take_zero]
      exact t.parents f hf

/-! ## What waits -/

/-- The scan would take the file, if it came to it. -/
def Waits (t : StaticTree) (incl skip : List Text) (ledger : Ledger) (f : TreeFile) : Prop :=
  f ∈ t.files ∧ ¬ (t.CompressedBeside f ∨ f.Bare) ∧
  ((∀ e ∈ skip, Scanner.matchesExtension f.path e = false) ∧
    (incl = [] ∨ ∃ e ∈ incl, Scanner.matchesExtension f.path e = true)) ∧
  ledger.getByName f.path = none

instance (t : StaticTree) (incl skip : List Text) (ledger : Ledger) (f : TreeFile) :
    Decidable (t.Waits incl skip ledger f) := inferInstanceAs (Decidable (_ ∧ _ ∧ _ ∧ _))

variable {dir : CanonicalDir} {dirs : List CanonicalDir} {incl skip : List Text} {ledger : Ledger} {p : Text}

/-- **The entries of one directory that are new** are the files below it that wait. -/
theorem new_entry_iff (h : t.Shows dir v) : p ∈ Scanner.entries v incl skip ∧ ledger.getByName p = none ↔
    ∃ f, t.Waits incl skip ledger f ∧ dir.Contains f ∧ f.path = p := by
  rw [Scanner.mem_entries, h.walk.mem_iff, walk_eq]
  constructor
  · rintro ⟨⟨hwalk, hcompressed, hallowed⟩, hnew⟩
    obtain ⟨f, hf, rfl⟩ := List.mem_map.1 hwalk
    obtain ⟨hmem, hin⟩ := List.mem_filter.1 hf
    refine ⟨f, ⟨hmem, fun hc => ?_, Scanner.extensionAllowed_iff.1 hallowed, hnew⟩, of_decide_eq_true hin, rfl⟩
    rw [(isBeingCompressed_iff h.existing hmem).2 hc] at hcompressed
    cases hcompressed
  · rintro ⟨f, ⟨hmem, hcompressed, hallowed, hnew⟩, hin, rfl⟩
    refine ⟨⟨List.mem_map_of_mem (List.mem_filter.2 ⟨hmem, decide_eq_true hin⟩), ?_,
      Scanner.extensionAllowed_iff.2 hallowed⟩, hnew⟩
    exact Bool.eq_false_of_not_eq_true (fun hc => hcompressed ((isBeingCompressed_iff h.existing hmem).1 hc))

end StaticTree

/-- In a sorted list, the first that passes a test comes before all that do. -/
theorem find?_sorted {α : Type} {r : α → α → Prop} (hrefl : ∀ a, r a a) {f : α → Bool} {a b : α} {as : List α}
    (hsorted : as.Pairwise r) (h : as.find? f = some a) (hb : b ∈ as) (hf : f b = true) : r a b := by
  obtain ⟨-, pre, post, rfl, hpre⟩ := List.find?_eq_some_iff_append.1 h
  rcases List.mem_append.1 hb with hb | hb
  · have hnot := hpre b hb
    rw [hf] at hnot
    cases hnot
  · rcases List.mem_cons.1 hb with rfl | hb
    · exact hrefl b
    · exact (List.pairwise_cons.1 (List.pairwise_append.1 hsorted).2.1).1 b hb

theorem firstDir_cons (dir : CanonicalDir) (dirs : List CanonicalDir) (f : TreeFile) :
    firstDir (dir :: dirs) f = if dir.Contains f then 0 else firstDir dirs f + 1 := by
  unfold firstDir
  rw [List.findIdx_cons, Bool.cond_decide]

namespace StaticTree

variable {t : StaticTree} {incl skip : List Text} {ledger : Ledger}

/-- What the scan of one directory chooses: nothing, when no file below it waits, or else the earliest of these. -/
theorem find?_entries {dir : CanonicalDir} {v : DirView} (h : t.Shows dir v) :
    (((Scanner.entries v incl skip).find? (fun p => !(ledger.getByName p).isSome) = none) ∧
      ∀ f, t.Waits incl skip ledger f → ¬ dir.Contains f) ∨
    ∃ f, t.Waits incl skip ledger f ∧ dir.Contains f ∧
      (Scanner.entries v incl skip).find? (fun p => !(ledger.getByName p).isSome) = some f.path ∧
      ∀ g, t.Waits incl skip ledger g → dir.Contains g → f.modifiedSecs ≤ g.modifiedSecs := by
  cases hfind : (Scanner.entries v incl skip).find? (fun p => !(ledger.getByName p).isSome) with
  | none =>
    refine .inl ⟨rfl, fun f hf hin => ?_⟩
    obtain ⟨hentry, habsent⟩ := (new_entry_iff h).2 ⟨f, hf, hin, rfl⟩
    exact List.find?_eq_none.1 hfind f.path hentry (Scanner.isNew_iff.2 habsent)
  | some p =>
    have hp := List.find?_some hfind
    obtain ⟨f, hf, hin, rfl⟩ := (new_entry_iff h).1 ⟨List.mem_of_find?_eq_some hfind, Scanner.isNew_iff.1 hp⟩
    refine .inr ⟨f, hf, hin, rfl, fun g hg hgin => ?_⟩
    obtain ⟨hentry, habsent⟩ := (new_entry_iff h).2 ⟨g, hg, hgin, rfl⟩
    have hsorted := Scanner.entries_sorted v incl skip
    have hle := find?_sorted (fun q => Nat.le_refl ((v.modified q).getD 0)) hsorted hfind hentry
      (Scanner.isNew_iff.2 habsent)
    rw [h.modified f hf.1, h.modified g hg.1] at hle
    exact hle

/-- **What a scan chooses**: nothing, when no file waits below any directory, or else the first of these. -/
theorem chosenFrom_waits {view : Nat → Text → DirView} : ∀ {k : Nat} {dirs : List CanonicalDir},
    (∀ j dir, dirs[j]? = some dir → t.Shows dir (view (k + j) dir.path)) →
    (Scanner.chosenFrom view incl skip ledger k (dirs.map CanonicalDir.path) = none ∧
      ∀ f, t.Waits incl skip ledger f → ∀ dir ∈ dirs, ¬ dir.Contains f) ∨
    ∃ v f, t.Waits incl skip ledger f ∧ (∃ dir ∈ dirs, dir.Contains f) ∧
      Scanner.chosenFrom view incl skip ledger k (dirs.map CanonicalDir.path) = some (v, f.path) ∧
      v.metadata f.path = some (f.size, f.createdAt) ∧ ∀ g, t.Waits incl skip ledger g → Before dirs f g
  | _, [], _ => .inl ⟨rfl, fun _ _ _ hdir => by cases hdir⟩
  | k, dir :: dirs, h => by
    have hdir : t.Shows dir (view k dir.path) := h 0 dir rfl
    unfold Before Scanner.chosenFrom
    rw [List.map_cons]
    dsimp only
    rcases @find?_entries t incl skip ledger dir _ hdir with ⟨hnone, hout⟩ | ⟨f, hf, hin, hsome, hmin⟩
    · -- nothing below this directory: all that wait stand one place further down
      rw [hnone]
      dsimp only
      have hrest : ∀ j dir', dirs[j]? = some dir' → t.Shows dir' (view (k + 1 + j) dir'.path) := by
        intro j dir' hj
        rw [Nat.add_assoc, Nat.add_comm 1 j]
        exact h (j + 1) dir' hj
      rcases chosenFrom_waits hrest with ⟨hnone', hout'⟩ | ⟨v, f, hf, ⟨dir', hdir', hin⟩, hsome, hmeta, hmin⟩
      · refine .inl ⟨hnone', fun f hf dir' hdir' => ?_⟩
        rcases List.mem_cons.1 hdir' with rfl | hdir'
        · exact hout f hf
        · exact hout' f hf dir' hdir'
      · refine .inr ⟨v, f, hf, ⟨dir', List.mem_cons_of_mem _ hdir', hin⟩, hsome, hmeta, fun g hg => ?_⟩
        rw [firstDir_cons, firstDir_cons, if_neg (hout f hf), if_neg (hout g hg), Nat.add_lt_add_iff_right, Nat.add_left_inj]
        exact hmin g hg
    · rw [hsome]
      refine .inr ⟨_, f, hf, ⟨dir, List.mem_cons_self, hin⟩, rfl, hdir.metadata f hf.1, fun g hg => ?_⟩
      rw [firstDir_cons, firstDir_cons, if_pos hin]
      by_cases hg' : dir.Contains g
      · rw [if_pos hg']
        exact .inr ⟨rfl, hmin g hg hg'⟩
      · rw [if_neg hg']
        exact .inl (Nat.succ_pos _)

end StaticTree

/-! ## Scan by scan -/

/-- The work a scan queues for a file. -/
def fileWork (rt : SenderRuntime) (id : FileId) (f : TreeFile) : List WorkItem :=
  [.manifest id f.path, .data id ⟨0, rt.totalFor f.size⟩]

namespace SenderRuntime

/-- The eligible files that the scans have still to come to. -/
def waiting (t : StaticTree) (dirs : List CanonicalDir) (rt : SenderRuntime) : Finset TreeFile :=
  t.files.toFinset.filter (fun f => (∃ dir ∈ dirs, dir.Contains f) ∧
    t.Waits rt.cfg.current.sender.includeExtensions rt.cfg.current.sender.skipExtensions rt.ledger f)

/-- The directories are what the sender scans. -/
structure Scans (dirs : List CanonicalDir) (rt : SenderRuntime) : Prop where
  state : rt.state = .auto
  dirs  : rt.cfg.current.sender.priorityDirs = dirs.map CanonicalDir.path

variable {t : StaticTree} {dirs : List CanonicalDir} {rt : SenderRuntime} {f : TreeFile}

theorem mem_waiting : f ∈ rt.waiting t dirs ↔ (∃ dir ∈ dirs, dir.Contains f) ∧
    t.Waits rt.cfg.current.sender.includeExtensions rt.cfg.current.sender.skipExtensions rt.ledger f := by
  unfold waiting
  rw [Finset.mem_filter, List.mem_toFinset]
  exact ⟨fun h => h.2, fun h => ⟨h.2.1, h⟩⟩

/-- **The candidate is the first file that waits.** -/
theorem next_waiting (h : rt.Scans dirs) {view : Nat → Text → DirView} (hview : t.Seen dirs view) :
    (rt.next view = .ok none ∧ rt.waiting t dirs = ∅) ∨
    ∃ f ∈ rt.waiting t dirs, rt.next view = .ok (some ⟨f.path, f.size, f.createdAt⟩) ∧
      ∀ g ∈ rt.waiting t dirs, Before dirs f g := by
  have hscan : rt.scanDirs = dirs.map CanonicalDir.path := by
    unfold scanDirs
    rw [h.state, if_neg (by decide), h.dirs]
  have hseen : ∀ j dir, dirs[j]? = some dir → t.Shows dir (view (0 + j) dir.path) := by
    intro j dir hj
    rw [Nat.zero_add]
    exact hview j dir hj
  unfold next
  rw [Scanner.nextCandidate_eq, Scanner.chosen, hscan]
  rcases @StaticTree.chosenFrom_waits t rt.cfg.current.sender.includeExtensions rt.cfg.current.sender.skipExtensions
    rt.ledger view 0 dirs hseen with ⟨hnone, hout⟩ | ⟨v, f, hf, hin, hsome, hmeta, hmin⟩
  · rw [hnone]
    refine .inl ⟨rfl, Finset.eq_empty_of_forall_notMem (fun f hf => ?_)⟩
    obtain ⟨⟨dir, hdir, hin⟩, hwaits⟩ := mem_waiting.1 hf
    exact hout f hwaits dir hdir hin
  · rw [hsome]
    refine .inr ⟨f, mem_waiting.2 ⟨hin, hf⟩, ?_, fun g hg => hmin g (mem_waiting.1 hg).2⟩
    dsimp only
    rw [Scanner.ask, hmeta]

theorem waiting_adds {rt' : SenderRuntime} (hcfg : rt'.cfg = rt.cfg) (hf : f ∈ t.files)
    (h : rt.ledger.Adds rt'.ledger f.path) : rt'.waiting t dirs = (rt.waiting t dirs).erase f := by
  ext g
  rw [Finset.mem_erase, mem_waiting, mem_waiting, hcfg]
  unfold StaticTree.Waits
  have hlisted := h.listed g.path
  constructor
  · rintro ⟨hin, hg, hcompressed, hallowed, hnew⟩
    rw [hnew, Option.isSome_none, eq_comm, Bool.or_eq_false_iff, decide_eq_false_iff_not] at hlisted
    refine ⟨fun heq => hlisted.2 (by rw [heq]), hin, hg, hcompressed, hallowed, ?_⟩
    exact Option.isNone_iff_eq_none.1 (Option.isSome_eq_false_iff.1 hlisted.1)
  · rintro ⟨hne, hin, hg, hcompressed, hallowed, hnew⟩
    have hpath : f.path ≠ g.path := fun heq => hne (StaticTree.path_inj hf hg heq).symm
    rw [hnew, decide_eq_false hpath] at hlisted
    exact ⟨hin, hg, hcompressed, hallowed, Option.isNone_iff_eq_none.1 (Option.isSome_eq_false_iff.1 hlisted)⟩

/-- The runtime once a file has been registered and queued. -/
def queued (rt : SenderRuntime) (l : Ledger) (id : FileId) (f : TreeFile) : SenderRuntime :=
  { rt with
    ledger := l
    queue := (rt.queue.pushBack (.manifest id f.path)).pushBack (.data id ⟨0, rt.totalFor f.size⟩) }

/-- **What scans and nothing else have done**: the files they took, one by one and in order, and those that still wait. -/
structure Took (t : StaticTree) (dirs : List CanonicalDir) (rt rt' : SenderRuntime) (taken : List (FileId × TreeFile)) :
    Prop where
  others  : rt' = { rt with ledger := rt'.ledger, queue := rt'.queue }
  queue   : rt'.queue.items = rt.queue.items ++ taken.flatMap (fun e => fileWork rt e.1 e.2)
  ledger  : rt.ledger.Extends rt'.ledger
  rows    : ∀ e ∈ taken, ∃ r, rt'.ledger.get e.1 = some r ∧ r.fileName = e.2.path
  once    : (taken.map Prod.snd).Nodup
  waiting : rt'.waiting t dirs = rt.waiting t dirs \ (taken.map Prod.snd).toFinset
  waited  : ∀ e ∈ taken, e.2 ∈ rt.waiting t dirs
  order   : (taken.map Prod.snd).Pairwise (Before dirs)
  ahead   : ∀ e ∈ taken, ∀ g ∈ rt'.waiting t dirs, Before dirs e.2 g
  seq     : rt'.ledger.seq = rt.ledger.seq + taken.length
  room    : taken ≠ [] → rt'.ledger.seq ≤ Ledger.MAX_ROWID

namespace Took

variable {rt' : SenderRuntime} {taken : List (FileId × TreeFile)}

theorem refl (t : StaticTree) (dirs : List CanonicalDir) (rt : SenderRuntime) : Took t dirs rt rt [] where
  others := rfl
  queue := (List.append_nil _).symm
  ledger := .refl _
  rows := fun _ he => by cases he
  once := .nil
  waiting := (Finset.sdiff_empty).symm
  waited := fun _ he => by cases he
  order := .nil
  ahead := fun _ he => by cases he
  seq := rfl
  room := fun h => absurd rfl h

theorem cfg (h : Took t dirs rt rt' taken) : rt'.cfg = rt.cfg := by rw [h.others]

theorem scans (h : Took t dirs rt rt' taken) (hrt : rt.Scans dirs) : rt'.Scans dirs := by
  refine ⟨?_, ?_⟩
  · rw [h.others]
    exact hrt.state
  · rw [h.cfg]
    exact hrt.dirs

theorem totalFor (h : Took t dirs rt rt' taken) (size : UInt64) : rt'.totalFor size = rt.totalFor size := by
  rw [h.others]
  rfl

/-- Each file taken is one that waited, so the ones left are that many fewer. -/
theorem card (h : Took t dirs rt rt' taken) : (rt'.waiting t dirs).card + taken.length = (rt.waiting t dirs).card := by
  have hsub : (taken.map Prod.snd).toFinset ⊆ rt.waiting t dirs := by
    intro f hf
    obtain ⟨e, he, rfl⟩ := List.mem_map.1 (List.mem_toFinset.1 hf)
    exact h.waited e he
  have hlen : (taken.map Prod.snd).toFinset.card = taken.length := by
    rw [List.toFinset_card_of_nodup h.once, List.length_map]
  rw [h.waiting, ← hlen]
  exact Finset.card_sdiff_add_card_eq_card hsub

/-- **One file more**, the first of those that wait. -/
theorem concat (h : Took t dirs rt rt' taken) (hf : f ∈ rt'.waiting t dirs) (hfirst : ∀ g ∈ rt'.waiting t dirs, Before dirs f g)
    (hseq : rt'.ledger.seq < Ledger.MAX_ROWID) {id : FileId} {l : Ledger} (hadds : rt'.ledger.Adds l f.path)
    (hext : rt'.ledger.Extends l) (hrow : ∃ r, l.get id = some r ∧ r.fileName = f.path) :
    Took t dirs rt (rt'.queued l id f) (taken ++ [(id, f)]) := by
  have hleft : (rt'.queued l id f).waiting t dirs = (rt'.waiting t dirs).erase f :=
    waiting_adds rfl (mem_waiting.1 hf).2.1 hadds
  have hnew : f ∈ rt.waiting t dirs ∧ f ∉ (taken.map Prod.snd).toFinset := by
    rw [h.waiting] at hf
    exact Finset.mem_sdiff.1 hf
  have hlater : ∀ e ∈ taken ++ [(id, f)], e ∈ taken ∨ e = (id, f) := by
    intro e he
    exact (List.mem_append.1 he).imp_right List.mem_singleton.1
  constructor
  case others =>
    unfold queued
    rw [h.others]
  case queue =>
    unfold queued
    rw [List.flatMap_append, List.flatMap_singleton, ← List.append_assoc, ← h.queue, PacketQueue.pushBack_items,
      PacketQueue.pushBack_items, List.append_assoc, h.totalFor]
    rfl
  case ledger => exact h.ledger.trans hext
  case rows =>
    intro e he
    rcases hlater e he with he | rfl
    · obtain ⟨r, hr, hname⟩ := h.rows e he
      obtain ⟨r', hr', hname', -⟩ := hext e.1 r hr
      exact ⟨r', hr', hname'.trans hname⟩
    · exact hrow
  case once =>
    rw [List.map_append, List.nodup_append]
    refine ⟨h.once, List.nodup_singleton _, fun g hg g' hg' heq => hnew.2 ?_⟩
    have hf' : g' = f := List.mem_singleton.1 hg'
    rw [← hf', ← heq]
    exact List.mem_toFinset.2 hg
  case waiting =>
    rw [hleft, h.waiting, List.map_append, List.toFinset_append, ← Finset.sdiff_singleton_eq_erase, sdiff_sdiff_left]
    rfl
  case waited =>
    intro e he
    rcases hlater e he with he | rfl
    · exact h.waited e he
    · exact hnew.1
  case order =>
    rw [List.map_append, List.pairwise_append]
    refine ⟨h.order, List.pairwise_singleton _ _, fun g hg g' hg' => ?_⟩
    obtain ⟨e, he, rfl⟩ := List.mem_map.1 hg
    rw [List.mem_singleton.1 hg']
    exact h.ahead e he f hf
  case ahead =>
    intro e he g hg
    rw [hleft] at hg
    rcases hlater e he with he | rfl
    · exact h.ahead e he g (Finset.mem_of_mem_erase hg)
    · exact hfirst g (Finset.mem_of_mem_erase hg)
  case seq =>
    rw [List.length_append, List.length_singleton, ← Nat.add_assoc, ← h.seq]
    exact hadds.seq
  case room =>
    intro _
    show l.seq ≤ Ledger.MAX_ROWID
    rw [hadds.seq]
    exact hseq

/-- **One scan more**: the first file that waits is taken, unless none does or no id is left; then nothing happens. -/
theorem scan (h : Took t dirs rt rt' taken) (hrt : rt.Scans dirs) {view : Nat → Text → DirView} (hview : t.Seen dirs view)
    (utc : DateTime) :
    (rt'.waiting t dirs = ∅ ∧ rt'.scanForWork view utc = (.ok (), rt')) ∨
    (rt'.waiting t dirs ≠ ∅ ∧ ¬ rt'.ledger.seq < Ledger.MAX_ROWID ∧ rt'.scanForWork view utc = (.error .sqlite, rt')) ∨
    (rt'.waiting t dirs ≠ ∅ ∧ rt'.ledger.seq < Ledger.MAX_ROWID ∧
      ∃ e, Took t dirs rt (rt'.scanForWork view utc).2 (taken ++ [e])) := by
  rcases next_waiting (h.scans hrt) hview with ⟨hnone, hempty⟩ | ⟨f, hf, hnext, hfirst⟩
  · refine .inl ⟨hempty, ?_⟩
    unfold next at hnone
    unfold scanForWork
    dsimp only
    rw [hnone]
  · have hsome := Finset.ne_empty_of_mem hf
    by_cases hseq : rt'.ledger.seq < Ledger.MAX_ROWID
    · obtain ⟨id, l, hadds, hext, hrow, heq⟩ := scanForWork_registers hnext hseq utc
      rw [heq]
      exact .inr (.inr ⟨hsome, hseq, (id, f), h.concat hf hfirst hseq hadds hext hrow⟩)
    · exact .inr (.inl ⟨hsome, hseq, scanForWork_full hnext hseq utc⟩)

end Took

end SenderRuntime

/-- Scans and nothing else: what each sees, and when it is made. -/
def scanRun (crc : Bytes → UInt32) (rt : SenderRuntime) (scans : List ((Nat → Text → DirView) × DateTime)) : SenderRuntime :=
  SenderOp.run crc rt (scans.map (fun s => .scanForWork s.1 s.2))

theorem scanRun_concat (crc : Bytes → UInt32) (rt : SenderRuntime) (scans : List ((Nat → Text → DirView) × DateTime))
    (s : (Nat → Text → DirView) × DateTime) :
    scanRun crc rt (scans ++ [s]) = ((scanRun crc rt scans).scanForWork s.1 s.2).2 := by
  unfold scanRun SenderOp.run
  rw [List.map_append, List.foldl_append]
  rfl

variable {t : StaticTree} {dirs : List CanonicalDir} {rt rt' : SenderRuntime}

/-- **A run of scans takes one file each**, until none waits or no id is left. -/
theorem took_scanRun (crc : Bytes → UInt32) (hrt : rt.Scans dirs) (scans : List ((Nat → Text → DirView) × DateTime))
    (hseen : ∀ s ∈ scans, t.Seen dirs s.1) : ∃ taken, rt.Took t dirs (scanRun crc rt scans) taken ∧
      (taken.length = scans.length ∨ (scanRun crc rt scans).waiting t dirs = ∅ ∨
        ¬ (scanRun crc rt scans).ledger.seq < Ledger.MAX_ROWID) := by
  induction scans using List.reverseRecOn with
  | nil => exact ⟨[], .refl t dirs rt, .inl rfl⟩
  | append_singleton scans s ih =>
    obtain ⟨taken, h, hstop⟩ := ih (fun s' hs' => hseen s' (List.mem_append_left _ hs'))
    have hs : t.Seen dirs s.1 := hseen s (List.mem_append_right _ List.mem_cons_self)
    rw [scanRun_concat]
    rcases h.scan hrt hs s.2 with ⟨hempty, heq⟩ | ⟨-, hfull, heq⟩ | ⟨hsome, hseq, e, h'⟩
    · rw [heq]
      exact ⟨taken, h, .inr (.inl hempty)⟩
    · rw [heq]
      exact ⟨taken, h, .inr (.inr hfull)⟩
    · have hlen : taken.length = scans.length := by
        rcases hstop with hlen | hempty | hfull
        · exact hlen
        · exact absurd hempty hsome
        · exact absurd hseq hfull
      refine ⟨taken ++ [e], h', .inl ?_⟩
      rw [List.length_append, List.length_append, hlen]
      rfl

/-! ## Every eligible file, once and in order -/

/-- The eligible files that are not in the ledger. -/
def SenderRuntime.unlisted (t : StaticTree) (dirs : List CanonicalDir) (rt : SenderRuntime) : Finset TreeFile :=
  t.files.toFinset.filter (fun f =>
    t.Eligible dirs rt.cfg.current.sender.includeExtensions rt.cfg.current.sender.skipExtensions f ∧
    rt.ledger.getByName f.path = none)

/-- The files queued, in order, under the ids of their rows: each eligible file that was not in the ledger, once; and a
further scan finds nothing. -/
structure TookAll (t : StaticTree) (dirs : List CanonicalDir) (rt rt' : SenderRuntime) (taken : List (FileId × TreeFile)) :
    Prop where
  queue : rt'.queue.items = rt.queue.items ++ taken.flatMap (fun e => fileWork rt e.1 e.2)
  rows  : ∀ e ∈ taken, ∃ r, rt'.ledger.get e.1 = some r ∧ r.fileName = e.2.path
  once  : (taken.map Prod.snd).Nodup
  every : ∀ f, f ∈ taken.map Prod.snd ↔ f ∈ rt.unlisted t dirs
  order : (taken.map Prod.snd).Pairwise (Before dirs)
  done  : ∀ view, t.Seen dirs view → ∀ utc, rt'.scanForWork view utc = (.ok (), rt')

/-- After finitely many scans of the tree, whatever their times and the order of the walks. -/
def TakesAll (crc : Bytes → UInt32) (t : StaticTree) (dirs : List CanonicalDir) (rt : SenderRuntime) : Prop :=
  ∃ n, ∀ scans : List ((Nat → Text → DirView) × DateTime), scans.length = n → (∀ s ∈ scans, t.Seen dirs s.1) →
    ∃ taken, TookAll t dirs rt (scanRun crc rt scans) taken

theorem mem_unlisted {f : TreeFile} : f ∈ rt.unlisted t dirs ↔ f ∈ t.files ∧
    t.Eligible dirs rt.cfg.current.sender.includeExtensions rt.cfg.current.sender.skipExtensions f ∧
    rt.ledger.getByName f.path = none := by
  unfold SenderRuntime.unlisted
  rw [Finset.mem_filter, List.mem_toFinset]

theorem mem_waiting_iff {f : TreeFile} : f ∈ rt.waiting t dirs ↔ f ∈ rt.unlisted t dirs ∧ ¬ f.Bare := by
  rw [SenderRuntime.mem_waiting, mem_unlisted]
  unfold StaticTree.Waits StaticTree.Eligible
  rw [not_or]
  constructor
  · rintro ⟨hin, hf, ⟨hcompressed, hbare⟩, ⟨hskip, hincl⟩, hnew⟩
    exact ⟨⟨hf, ⟨hin, hcompressed, hskip, hincl⟩, hnew⟩, hbare⟩
  · rintro ⟨⟨hf, ⟨hin, hcompressed, hskip, hincl⟩, hnew⟩, hbare⟩
    exact ⟨hin, hf, ⟨hcompressed, hbare⟩, ⟨hskip, hincl⟩, hnew⟩

theorem waiting_eq_unlisted (h : ∀ f ∈ rt.unlisted t dirs, ¬ f.Bare) : rt.waiting t dirs = rt.unlisted t dirs := by
  ext f
  rw [mem_waiting_iff]
  exact ⟨And.left, fun hf => ⟨hf, h f hf⟩⟩

/-- A view that shows the tree. -/
def StaticTree.viewOf (t : StaticTree) (dirs : List CanonicalDir) : Nat → Text → DirView := fun k _ => {
  walk := (dirs[k]?.map t.walk).getD []
  existing := t.existing
  modified := fun p => (t.files.find? (fun f => f.path = p)).map TreeFile.modifiedSecs
  metadata := fun p => (t.files.find? (fun f => f.path = p)).map (fun f => (f.size, f.createdAt)) }

theorem StaticTree.find?_path {f : TreeFile} (hf : f ∈ t.files) : t.files.find? (fun g => g.path = f.path) = some f := by
  cases hfind : t.files.find? (fun g => g.path = f.path) with
  | none => exact absurd (decide_eq_true rfl) (List.find?_eq_none.1 hfind f hf)
  | some g =>
    have hpath := List.find?_some hfind
    rw [StaticTree.path_inj (List.mem_of_find?_eq_some hfind) hf (of_decide_eq_true hpath)]

theorem StaticTree.seen_viewOf (t : StaticTree) (dirs : List CanonicalDir) : t.Seen dirs (t.viewOf dirs) := by
  intro k dir hk
  refine ⟨?_, fun _ => rfl, fun f hf => ?_, fun f hf => ?_⟩
  · show ((dirs[k]?.map t.walk).getD []).Perm _
    rw [hk]
    exact .refl _
  · show ((t.files.find? _).map _).getD 0 = _
    rw [StaticTree.find?_path hf]
    rfl
  · show (t.files.find? _).map _ = _
    rw [StaticTree.find?_path hf]
    rfl

theorem takesAll_of (crc : Bytes → UInt32) (hrt : rt.Scans dirs) (hbare : ∀ f ∈ rt.unlisted t dirs, ¬ f.Bare)
    (hroom : (rt.unlisted t dirs).card ≤ Ledger.MAX_ROWID - rt.ledger.seq) : TakesAll crc t dirs rt := by
  have hwait := waiting_eq_unlisted hbare
  refine ⟨(rt.waiting t dirs).card, fun scans hlen hseen => ?_⟩
  obtain ⟨taken, h, hstop⟩ := took_scanRun crc hrt scans hseen
  have hempty : (scanRun crc rt scans).waiting t dirs = ∅ := by
    have hcard := h.card
    have hseq := h.seq
    rw [← hwait] at hroom
    rcases hstop with hall | hempty | hfull
    · exact Finset.card_eq_zero.1 (by omega)
    · exact hempty
    · exact Finset.card_eq_zero.1 (by omega)
  refine ⟨taken, h.queue, h.rows, h.once, fun f => ?_, h.order, fun view hview utc => ?_⟩
  · rw [← hwait]
    constructor
    · intro hf
      obtain ⟨e, he, rfl⟩ := List.mem_map.1 hf
      exact h.waited e he
    · intro hf
      have hleft := h.waiting
      rw [hempty, eq_comm, Finset.sdiff_eq_empty_iff_subset] at hleft
      exact List.mem_toFinset.1 (hleft hf)
  · rcases h.scan hrt hview utc with ⟨-, heq⟩ | ⟨hsome, -⟩ | ⟨hsome, -⟩
    · exact heq
    · exact absurd hempty hsome
    · exact absurd hempty hsome

/-- The run behind `TakesAll` is a run of scans like any other, and nothing waits at its end. -/
theorem TakesAll.took {crc : Bytes → UInt32} (h : TakesAll crc t dirs rt) (hrt : rt.Scans dirs) : ∃ rt' taken taken',
    TookAll t dirs rt rt' taken ∧ rt.Took t dirs rt' taken' ∧ rt'.waiting t dirs = ∅ := by
  obtain ⟨n, hn⟩ := h
  have hseen : ∀ s ∈ List.replicate n (t.viewOf dirs, (0 : DateTime)), t.Seen dirs s.1 := by
    intro s hs
    rw [List.eq_of_mem_replicate hs]
    exact t.seen_viewOf dirs
  obtain ⟨taken, hall⟩ := hn _ List.length_replicate hseen
  obtain ⟨taken', htook, -⟩ := took_scanRun crc hrt _ hseen
  refine ⟨_, taken, taken', hall, htook, ?_⟩
  have hdone := hall.done _ (t.seen_viewOf dirs) 0
  rcases htook.scan hrt (t.seen_viewOf dirs) 0 with ⟨hempty, -⟩ | ⟨-, -, heq⟩ | ⟨-, -, e, hmore⟩
  · exact hempty
  · rw [hdone] at heq
    cases heq
  · rw [hdone] at hmore
    have hlen := htook.seq.symm.trans hmore.seq
    rw [List.length_append, List.length_singleton] at hlen
    omega

theorem TakesAll.not_bare {crc : Bytes → UInt32} (h : TakesAll crc t dirs rt) (hrt : rt.Scans dirs) {f : TreeFile}
    (hf : f ∈ rt.unlisted t dirs) : ¬ f.Bare := by
  obtain ⟨rt', taken, taken', hall, htook, -⟩ := h.took hrt
  have hwork := List.append_cancel_left (hall.queue.symm.trans htook.queue)
  obtain ⟨e, he, rfl⟩ := List.mem_map.1 ((hall.every f).2 hf)
  have hmem : WorkItem.manifest e.1 e.2.path ∈ taken.flatMap (fun e => fileWork rt e.1 e.2) :=
    List.mem_flatMap.2 ⟨e, he, List.mem_cons_self⟩
  rw [hwork] at hmem
  obtain ⟨e', he', hitem⟩ := List.mem_flatMap.1 hmem
  have hpath : e.2.path = e'.2.path := by
    unfold fileWork at hitem
    simp only [List.mem_cons, WorkItem.manifest.injEq, List.not_mem_nil, reduceCtorEq, or_false] at hitem
    exact hitem.2
  obtain ⟨hunlisted, hbare⟩ := mem_waiting_iff.1 (htook.waited e' he')
  rw [StaticTree.path_inj (mem_unlisted.1 hf).1 (mem_unlisted.1 hunlisted).1 hpath]
  exact hbare

theorem TakesAll.room {crc : Bytes → UInt32} (h : TakesAll crc t dirs rt) (hrt : rt.Scans dirs) :
    (rt.unlisted t dirs).card ≤ Ledger.MAX_ROWID - rt.ledger.seq := by
  obtain ⟨rt', taken, taken', -, htook, hempty⟩ := h.took hrt
  have hwait : rt.waiting t dirs = rt.unlisted t dirs := waiting_eq_unlisted (fun f hf => h.not_bare hrt hf)
  have hcard := htook.card
  have hseq := htook.seq
  rw [hempty, Finset.card_empty, hwait] at hcard
  rcases taken'.eq_nil_or_concat' with rfl | ⟨init, e, rfl⟩
  · rw [← hcard]
    exact Nat.zero_le _
  · have hroom := htook.room (List.append_ne_nil_of_right_ne_nil _ (List.cons_ne_nil _ _))
    omega

namespace Trees

def q : CanonicalDir := ⟨["q".toList], by decide⟩

def sub : CanonicalDir := ⟨["q".toList, "sub".toList], by decide⟩

/-- `/q/a.fits`, `/q/c.fits`, its copy being compressed and `/q/sub/b.FITS`. -/
def images : List TreeFile :=
  [⟨["q".toList], "a.fits".toList, 2000, 0, 9 * SECOND⟩, ⟨["q".toList], "c.fits".toList, 70, 0, 5 * SECOND⟩,
    ⟨["q".toList], "c.fits.bz2".toList, 10, 0, 7 * SECOND⟩, ⟨["q".toList, "sub".toList], "b.FITS".toList, 0, 0, -1⟩]

def nested : StaticTree where
  files := images
  existing := fun p => p ∈ images.map TreeFile.path ++ ["/q/".toList, "/q/sub/".toList]
  names := by decide
  apart := by decide
  present := by decide
  parents := by decide

/-- `/q/.gz` alone. -/
def bare : StaticTree where
  files := [⟨["q".toList], ".gz".toList, 10, 0, 0⟩]
  existing := fun p => p ∈ ["/q/.gz".toList, "/q/".toList]
  names := by decide
  apart := by decide
  present := by decide
  parents := by decide

end Trees

end Parachuter
