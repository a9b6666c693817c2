import Mathlib.Data.List.Sort
import Parachuter.Ledger
/-!
# The priority-directory scanner (`sender/scanner.rs`)

A scan walks each directory, filters and sorts what it found, and asks again for the metadata of the first file not in
the ledger.  Files come and go while it does, so what each of these calls sees is given separately: a `DirView` for
each directory walked.
-/
namespace Parachuter

structure Candidate where
  path      : Text
  size      : UInt64
  createdAt : DateTime
  deriving DecidableEq, Repr

/-- What the calls of one directory's scan see: the regular files the walk yields, in its order; which paths exist
when the compression check asks; the modification times, in seconds, when the sort asks; size and creation time when
the metadata call asks.  `none` is a file that is gone by then. -/
structure DirView where
  walk     : List Text
  existing : Text → Bool
  modified : Text → Option Nat
  metadata : Text → Option (UInt64 × DateTime)

namespace Scanner

def stripSuffix (s ext : Text) : Option Text := if ext <:+ s then some (s.take (s.length - ext.length)) else none

def isBeingCompressed (v : DirView) (p : Text) : Bool :=
  match stripSuffix p ".bz2".toList with
  | some stem => v.existing stem
  | none      =>
    match stripSuffix p ".gz".toList with
    | some stem => v.existing stem
    | none      => false

/-- `Path::file_name`, or the empty text. -/
def fileName (path : Text) : Text :=
  match (components path).getLast? with
  | some c => if c = ['.', '.'] then [] else c
  | none   => []

def lower (s : Text) : Text := s.map Char.toLower

def matchesExtension (path ext : Text) : Bool :=
  let needleBody := lower (ext.dropWhile (· = '.'))
  if needleBody.isEmpty then false
  else decide ('.' :: needleBody <:+ lower (fileName path))

def extensionAllowed (path : Text) (incl skip : List Text) : Bool :=
  if skip.any (matchesExtension path) then false
  else if incl.isEmpty then true
  else incl.any (matchesExtension path)

theorem extensionAllowed_iff {path : Text} {incl skip : List Text} : extensionAllowed path incl skip = true ↔
    (∀ e ∈ skip, matchesExtension path e = false) ∧ (incl = [] ∨ ∃ e ∈ incl, matchesExtension path e = true) := by
  unfold extensionAllowed
  split
  · rename_i hskip
    obtain ⟨e, he, hmatch⟩ := List.any_eq_true.1 hskip
    refine ⟨fun hfalse => absurd hfalse Bool.false_ne_true, fun hall => ?_⟩
    rw [hall.1 e he] at hmatch
    exact absurd hmatch Bool.false_ne_true
  · rename_i hskip
    have hnone : ∀ e ∈ skip, matchesExtension path e = false := by
      intro e he
      exact Bool.eq_false_of_not_eq_true (fun hmatch => hskip (List.any_eq_true.2 ⟨e, he, hmatch⟩))
    rw [and_iff_right hnone]
    split
    · rename_i hincl
      exact ⟨fun _ => .inl (List.isEmpty_iff.1 hincl), fun _ => rfl⟩
    · rename_i hincl
      rw [List.any_eq_true, or_iff_right (fun hnil => hincl (List.isEmpty_iff.2 hnil))]

/-- The entries of one directory that pass the filters, earliest modified first; the sort is stable. -/
def entries (v : DirView) (incl skip : List Text) : List Text :=
  ((v.walk.filter (fun p => !isBeingCompressed v p)).filter (fun p => extensionAllowed p incl skip)).insertionSort
    (fun p q => (v.modified p).getD 0 ≤ (v.modified q).getD 0)

theorem mem_entries {v : DirView} {incl skip : List Text} {p : Text} : p ∈ entries v incl skip ↔
    p ∈ v.walk ∧ isBeingCompressed v p = false ∧ extensionAllowed p incl skip = true := by
  unfold entries
  rw [List.mem_insertionSort, List.mem_filter, List.mem_filter, Bool.not_eq_true', and_assoc]

theorem entries_sorted (v : DirView) (incl skip : List Text) :
    (entries v incl skip).Pairwise (fun p q => (v.modified p).getD 0 ≤ (v.modified q).getD 0) := by
  have : Std.Total (fun p q => (v.modified p).getD 0 ≤ (v.modified q).getD 0) := ⟨fun _ _ => Nat.le_total _ _⟩
  have : IsTrans Text (fun p q => (v.modified p).getD 0 ≤ (v.modified q).getD 0) := ⟨fun _ _ _ => Nat.le_trans⟩
  unfold entries
  exact List.pairwise_insertionSort _ _

/-- The first entry not in the ledger; its metadata must still be there. -/
def pick (v : DirView) (ledger : Ledger) : List Text → Except Error (Option Candidate)
  | []      => .ok none
  | p :: ps =>
    if (ledger.getByName p).isSome then pick v ledger ps
    else
      match v.metadata p with
      | none              => .error (.io .other)
      | some (size, time) => .ok (some ⟨p, size, time⟩)

/-- The loop over the directories, from the `k`-th on. -/
def nextCandidateFrom (view : Nat → Text → DirView) (incl skip : List Text) (ledger : Ledger) :
    Nat → List Text → Except Error (Option Candidate)
  | _, []          => .ok none
  | k, dir :: dirs =>
    match pick (view k dir) ledger (entries (view k dir) incl skip) with
    | .error e     => .error e
    | .ok (some c) => .ok (some c)
    | .ok none     => nextCandidateFrom view incl skip ledger (k + 1) dirs

def nextCandidate (view : Nat → Text → DirView) (priorityDirs incl skip : List Text) (ledger : Ledger) :
    Except Error (Option Candidate) :=
  nextCandidateFrom view incl skip ledger 0 priorityDirs

/-! ## The one file a scan asks about -/

/-- The first entry not in the ledger, with the view it was found in. -/
def chosenFrom (view : Nat → Text → DirView) (incl skip : List Text) (ledger : Ledger) :
    Nat → List Text → Option (DirView × Text)
  | _, []          => none
  | k, dir :: dirs =>
    match (entries (view k dir) incl skip).find? (fun p => !(ledger.getByName p).isSome) with
    | some p => some (view k dir, p)
    | none   => chosenFrom view incl skip ledger (k + 1) dirs

def chosen (view : Nat → Text → DirView) (priorityDirs incl skip : List Text) (ledger : Ledger) :
    Option (DirView × Text) := chosenFrom view incl skip ledger 0 priorityDirs

/-- What the scan answers about it. -/
def ask (v : DirView) (p : Text) : Except Error (Option Candidate) :=
  match v.metadata p with
  | none              => .error (.io .other)
  | some (size, time) => .ok (some ⟨p, size, time⟩)

theorem isNew_iff {ledger : Ledger} {p : Text} : (!(ledger.getByName p).isSome) = true ↔ ledger.getByName p = none := by
  rw [Bool.not_eq_true', Option.isSome_eq_false_iff, Option.isNone_iff_eq_none]

theorem pick_eq (v : DirView) (ledger : Ledger) : ∀ ps : List Text, pick v ledger ps =
    match ps.find? (fun p => !(ledger.getByName p).isSome) with
    | some p => ask v p
    | none   => .ok none
  | []      => rfl
  | p :: ps => by
    unfold pick
    cases h : (ledger.getByName p).isSome with
    | true =>
      rw [if_pos rfl, List.find?_cons_of_neg (by simp [h])]
      exact pick_eq v ledger ps
    | false =>
      rw [if_neg (by simp), List.find?_cons_of_pos (by simp [h])]
      rfl

theorem nextCandidateFrom_eq (view : Nat → Text → DirView) (incl skip : List Text) (ledger : Ledger) :
    ∀ (k : Nat) (dirs : List Text), nextCandidateFrom view incl skip ledger k dirs =
      match chosenFrom view incl skip ledger k dirs with
      | some (v, p) => ask v p
      | none        => .ok none
  | _, []          => rfl
  | k, dir :: dirs => by
    unfold nextCandidateFrom chosenFrom
    rw [pick_eq]
    cases (entries (view k dir) incl skip).find? (fun p => !(ledger.getByName p).isSome) with
    | none => exact nextCandidateFrom_eq view incl skip ledger (k + 1) dirs
    | some p =>
      unfold ask
      dsimp only
      cases (view k dir).metadata p with
      | none => rfl
      | some m => rfl

/-- **A scan asks for the metadata of one file**, the first not in the ledger. -/
theorem nextCandidate_eq (view : Nat → Text → DirView) (priorityDirs incl skip : List Text) (ledger : Ledger) :
    nextCandidate view priorityDirs incl skip ledger =
      match chosen view priorityDirs incl skip ledger with
      | some (v, p) => ask v p
      | none        => .ok none := nextCandidateFrom_eq view incl skip ledger 0 priorityDirs

theorem chosenFrom_some {view : Nat → Text → DirView} {incl skip : List Text} {ledger : Ledger} {v : DirView}
    {p : Text} : ∀ {k : Nat} {dirs : List Text}, chosenFrom view incl skip ledger k dirs = some (v, p) →
      ledger.getByName p = none ∧ ∃ j, ∃ dir ∈ dirs, v = view j dir ∧ p ∈ entries v incl skip
  | _, [], h          => by cases h
  | k, dir :: dirs, h => by
    unfold chosenFrom at h
    split at h
    · rename_i q hq
      cases h
      have hnew := List.find?_some hq
      exact ⟨isNew_iff.1 hnew, k, dir, List.mem_cons_self, rfl, List.mem_of_find?_eq_some hq⟩
    · obtain ⟨hnew, j, dir', hdir, hv⟩ := chosenFrom_some h
      exact ⟨hnew, j, dir', List.mem_cons_of_mem _ hdir, hv⟩

/-- Which file that is depends on the ledger's names alone. -/
theorem chosenFrom_congr {view : Nat → Text → DirView} {incl skip : List Text} {l l' : Ledger}
    (h : ∀ p, (l'.getByName p).isSome = (l.getByName p).isSome) : ∀ (k : Nat) (dirs : List Text),
      chosenFrom view incl skip l' k dirs = chosenFrom view incl skip l k dirs
  | _, []          => rfl
  | k, dir :: dirs => by
    unfold chosenFrom
    simp only [h, chosenFrom_congr h (k + 1) dirs]

/-- **A candidate** is not in the ledger, passed the filters of one of the directories, and was there when asked about. -/
theorem nextCandidate_some {view : Nat → Text → DirView} {priorityDirs incl skip : List Text} {ledger : Ledger}
    {c : Candidate} (h : nextCandidate view priorityDirs incl skip ledger = .ok (some c)) :
    ledger.getByName c.path = none ∧ ∃ j, ∃ dir ∈ priorityDirs, c.path ∈ entries (view j dir) incl skip ∧
      (view j dir).metadata c.path = some (c.size, c.createdAt) := by
  rw [nextCandidate_eq] at h
  split at h
  · rename_i v p hvp
    obtain ⟨hnew, j, dir, hdir, rfl, hp⟩ := chosenFrom_some hvp
    unfold ask at h
    split at h
    · cases h
    · rename_i size time hm
      cases h
      exact ⟨hnew, j, dir, hdir, hp, hm⟩
  · cases h

end Scanner

end Parachuter
