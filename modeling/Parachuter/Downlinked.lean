import Mathlib.Data.Finset.Card
import Mathlib.Data.List.TakeWhile
import Parachuter.Operations
import Parachuter.Lib.Strings
/-!
# Downlinked — the ledger's snapshot among the files to send

The snapshot is written below the first priority directory and meets the scanner like any other file there.  Each scan
registers the first file not yet in the ledger, so while the tree stands still the files before the snapshot go one by
one, as long as the ledger has ids to give.
-/
namespace Parachuter

open Blob (Bytes)

/-! ## The queue in front of a file -/

/-- Where a file stands in line: the first one eligible is before it, or it is the file itself. -/
theorem find?_before {α : Type} [DecidableEq α] {f : α → Bool} {p : α} (hf : f p = true) : ∀ {es : List α}, p ∈ es →
    (∃ q ∈ (es.takeWhile (· ≠ p)).filter f, es.find? f = some q) ∨
    ((es.takeWhile (· ≠ p)).filter f = [] ∧ es.find? f = some p)
  | e :: es, hp => by
    by_cases he : e = p
    · subst he
      rw [List.takeWhile_cons_of_neg (by simp), List.find?_cons_of_pos hf]
      exact .inr ⟨rfl, rfl⟩
    · have hp' : p ∈ es := (List.mem_cons.1 hp).resolve_left (Ne.symm he)
      rw [List.takeWhile_cons_of_pos (by simpa using he)]
      cases hfe : f e with
      | true =>
        rw [List.find?_cons_of_pos hfe, List.filter_cons_of_pos hfe]
        exact .inl ⟨e, List.mem_cons_self, rfl⟩
      | false =>
        rw [List.find?_cons_of_neg (by simp [hfe]), List.filter_cons_of_neg (by simp [hfe])]
        exact find?_before hf hp'

namespace Scanner

/-- The files of a directory that a scan registers before it comes to `p`. -/
def ahead (v : DirView) (incl skip : List Text) (ledger : Ledger) (p : Text) : Finset Text :=
  (((entries v incl skip).takeWhile (· ≠ p)).filter (fun q => !(ledger.getByName q).isSome)).toFinset

theorem mem_ahead {v : DirView} {incl skip : List Text} {ledger : Ledger} {p q : Text}
    (h : q ∈ ahead v incl skip ledger p) : q ≠ p := by
  unfold ahead at h
  rw [List.mem_toFinset, List.mem_filter] at h
  have hne := List.mem_takeWhile_imp h.1
  exact of_decide_eq_true hne

theorem ahead_adds {v : DirView} {incl skip : List Text} {l l' : Ledger} {p q : Text} (h : l.Adds l' q) :
    ahead v incl skip l' p = (ahead v incl skip l p).erase q := by
  ext r
  unfold ahead
  rw [Finset.mem_erase, List.mem_toFinset, List.mem_toFinset, List.mem_filter, List.mem_filter, h.listed r,
    Bool.not_or, Bool.and_eq_true, Bool.not_eq_true' (decide (q = r)), decide_eq_false_iff_not]
  constructor
  · rintro ⟨hr, hnew, hne⟩
    exact ⟨Ne.symm hne, hr, hnew⟩
  · rintro ⟨hne, hr, hnew⟩
    exact ⟨hr, hnew, Ne.symm hne⟩

end Scanner

namespace SenderRuntime

/-- What `next_candidate` answers a scan. -/
def next (view : Nat → Text → DirView) (rt : SenderRuntime) : Except Error (Option Candidate) :=
  Scanner.nextCandidate view rt.scanDirs rt.cfg.current.sender.includeExtensions
    rt.cfg.current.sender.skipExtensions rt.ledger

/-- The settings and the state are as they were, and no name has left the ledger. -/
structure Onward (rt rt' : SenderRuntime) : Prop where
  cfg    : rt'.cfg = rt.cfg
  state  : rt'.state = rt.state
  listed : ∀ q, (rt.ledger.getByName q).isSome = true → (rt'.ledger.getByName q).isSome = true

theorem Onward.refl (rt : SenderRuntime) : Onward rt rt := ⟨rfl, rfl, fun _ h => h⟩

theorem Onward.trans {rt rt' rt'' : SenderRuntime} (h : Onward rt rt') (h' : Onward rt' rt'') : Onward rt rt'' :=
  ⟨h'.cfg.trans h.cfg, h'.state.trans h.state, fun q hq => h'.listed q (h.listed q hq)⟩

theorem Onward.scanDirs {rt rt' : SenderRuntime} (h : Onward rt rt') : rt'.scanDirs = rt.scanDirs := by
  unfold SenderRuntime.scanDirs
  rw [h.cfg, h.state]

variable {rt : SenderRuntime} {view : Nat → Text → DirView}

/-- **A scan without a candidate changes nothing.** -/
theorem scanForWork_still (h : ∀ c, rt.next view ≠ .ok (some c)) (utc : DateTime) : (rt.scanForWork view utc).2 = rt := by
  unfold scanForWork
  dsimp only
  split
  · rfl
  · rfl
  · rename_i c hc
    exact absurd hc (h c)

/-- **A scan registers its candidate and queues it whole**, if there is an id left. -/
theorem scanForWork_registers {c : Candidate} (h : rt.next view = .ok (some c)) (hseq : rt.ledger.seq < Ledger.MAX_ROWID)
    (utc : DateTime) : ∃ id l, rt.ledger.Adds l c.path ∧ rt.ledger.Extends l ∧ (∃ r, l.get id = some r ∧ r.fileName = c.path) ∧
      rt.scanForWork view utc = (.ok (), { rt with
        ledger := l
        queue := (rt.queue.pushBack (.manifest id c.path)).pushBack (.data id ⟨0, rt.totalFor c.size⟩) }) := by
  have hnew := (Scanner.nextCandidate_some h).1
  unfold next at h
  unfold scanForWork registerAndPush
  dsimp only
  rw [h]
  dsimp only
  obtain ⟨id, l, hl, -, hadds⟩ := Ledger.upsertFile_new hnew hseq c.size c.createdAt rt.cfg.current.sender.imagesPerDark
    rt.cfg.current.sender.imagesPerFlat rt.cfg.current.sender.imagesPerBias (UInt32.ofNat rt.currentChunkSize)
  rw [hl]
  obtain ⟨hext, ⟨r, hr, hname⟩, -⟩ := Ledger.upsertFile_ok hl
  obtain ⟨r', hr', hname', -⟩ := Ledger.get_markQueued hr id utc
  exact ⟨id, l.markQueued id utc, hadds.markQueued id utc, hext.trans (l.extends_markQueued id utc),
    ⟨r', hr', hname'.trans hname⟩, rfl⟩

theorem scanForWork_next {c : Candidate} (h : rt.next view = .ok (some c)) (hseq : rt.ledger.seq < Ledger.MAX_ROWID)
    (utc : DateTime) : Onward rt (rt.scanForWork view utc).2 ∧ rt.ledger.Adds (rt.scanForWork view utc).2.ledger c.path := by
  obtain ⟨id, l, hadds, -, -, heq⟩ := scanForWork_registers h hseq utc
  rw [heq]
  refine ⟨⟨rfl, rfl, fun q hq => ?_⟩, hadds⟩
  exact (hadds.listed q).trans (by rw [hq, Bool.true_or])

/-- **Without one it stays where it is.** -/
theorem scanForWork_full {c : Candidate} (h : rt.next view = .ok (some c)) (hseq : ¬ rt.ledger.seq < Ledger.MAX_ROWID)
    (utc : DateTime) : rt.scanForWork view utc = (.error .sqlite, rt) := by
  have hnew := (Scanner.nextCandidate_some h).1
  unfold next at h
  unfold scanForWork registerAndPush
  dsimp only
  rw [h]
  dsimp only
  rw [Ledger.upsertFile_full hnew hseq]

theorem onward_scan (rt : SenderRuntime) (view : Nat → Text → DirView) (utc : DateTime) :
    Onward rt (rt.scanForWork view utc).2 := by
  by_cases h : ∃ c, rt.next view = .ok (some c)
  · obtain ⟨c, hc⟩ := h
    by_cases hseq : rt.ledger.seq < Ledger.MAX_ROWID
    · exact (scanForWork_next hc hseq utc).1
    · rw [scanForWork_full hc hseq]
      exact .refl rt
  · rw [scanForWork_still (fun c hc => h ⟨c, hc⟩)]
    exact .refl rt

end SenderRuntime

/-- So many scans and nothing else, at the given times. -/
def scans (crc : Bytes → UInt32) (view : Nat → Text → DirView) (rt : SenderRuntime) (times : List DateTime) :
    SenderRuntime := SenderOp.run crc rt (times.map (.scanForWork view))

theorem onward_scans (crc : Bytes → UInt32) (view : Nat → Text → DirView) : ∀ (times : List DateTime)
    (rt : SenderRuntime), rt.Onward (scans crc view rt times)
  | [], rt            => .refl rt
  | utc :: times, rt => (rt.onward_scan view utc).trans (onward_scans crc view times _)

/-- After finitely many scans, whatever the times, the file is the candidate. -/
def Downlinks (crc : Bytes → UInt32) (view : Nat → Text → DirView) (rt : SenderRuntime) (p : Text) : Prop :=
  ∃ n, ∀ times : List DateTime, times.length = n →
    ∃ c, (scans crc view rt times).next view = .ok (some c) ∧ c.path = p

/-- **Only a file that was walked, passes the filters and is not in the ledger.** -/
theorem Downlinks.entry {crc : Bytes → UInt32} {view : Nat → Text → DirView} {rt : SenderRuntime} {p : Text}
    (h : Downlinks crc view rt p) : rt.ledger.getByName p = none ∧
      Scanner.extensionAllowed p rt.cfg.current.sender.includeExtensions rt.cfg.current.sender.skipExtensions = true ∧
      ∃ j dir, dir ∈ rt.scanDirs ∧ p ∈ (view j dir).walk := by
  obtain ⟨n, h⟩ := h
  obtain ⟨c, hc, rfl⟩ := h (List.replicate n 0) List.length_replicate
  have hon := onward_scans crc view (List.replicate n 0) rt
  obtain ⟨hnew, j, dir, hdir, hp, -⟩ := Scanner.nextCandidate_some hc
  obtain ⟨hwalk, -, hallowed⟩ := Scanner.mem_entries.1 hp
  rw [hon.cfg] at hallowed
  rw [hon.scanDirs] at hdir
  refine ⟨?_, hallowed, j, dir, hdir, hwalk⟩
  rw [← Option.not_isSome_iff_eq_none]
  intro hsome
  have hstill := hon.listed _ hsome
  rw [hnew] at hstill
  cases hstill

/-! ## How long it takes -/

namespace SenderRuntime

/-- The file is eligible in the directory scanned first, where every file is still there when asked about. -/
structure InLine (view : Nat → Text → DirView) (dir p : Text) (rt : SenderRuntime) : Prop where
  first : ∃ dirs, rt.scanDirs = dir :: dirs
  there : ∀ q ∈ (view 0 dir).walk, (view 0 dir).metadata q ≠ none
  entry : p ∈ Scanner.entries (view 0 dir) rt.cfg.current.sender.includeExtensions rt.cfg.current.sender.skipExtensions
  fresh : rt.ledger.getByName p = none

/-- The files registered before it. -/
def ahead (view : Nat → Text → DirView) (dir p : Text) (rt : SenderRuntime) : Finset Text :=
  Scanner.ahead (view 0 dir) rt.cfg.current.sender.includeExtensions rt.cfg.current.sender.skipExtensions rt.ledger p

namespace InLine

variable {crc : Bytes → UInt32} {view : Nat → Text → DirView} {dir p : Text} {rt : SenderRuntime}

/-- **The candidate is the file, or one ahead of it.** -/
theorem next (h : rt.InLine view dir p) : ∃ c, rt.next view = .ok (some c) ∧
    (c.path ∈ rt.ahead view dir p ∨ (rt.ahead view dir p = ∅ ∧ c.path = p)) := by
  obtain ⟨dirs, hdirs⟩ := h.first
  have hf : (!(rt.ledger.getByName p).isSome) = true := by
    rw [h.fresh]
    rfl
  obtain ⟨q, hfind, hq⟩ : ∃ q, (Scanner.entries (view 0 dir) rt.cfg.current.sender.includeExtensions
      rt.cfg.current.sender.skipExtensions).find? (fun q => !(rt.ledger.getByName q).isSome) = some q ∧
      (q ∈ rt.ahead view dir p ∨ (rt.ahead view dir p = ∅ ∧ q = p)) := by
    unfold SenderRuntime.ahead Scanner.ahead
    rcases @find?_before _ _ (fun q => !(rt.ledger.getByName q).isSome) p hf _ h.entry with ⟨q, hq, hfind⟩ | ⟨hnone, hfind⟩
    · exact ⟨q, hfind, .inl (List.mem_toFinset.2 hq)⟩
    · rw [hnone]
      exact ⟨p, hfind, .inr ⟨rfl, rfl⟩⟩
  obtain ⟨⟨size, time⟩, hmeta⟩ := Option.ne_none_iff_exists'.1
    (h.there q (Scanner.mem_entries.1 (List.mem_of_find?_eq_some hfind)).1)
  refine ⟨⟨q, size, time⟩, ?_, hq⟩
  unfold SenderRuntime.next
  rw [Scanner.nextCandidate_eq, Scanner.chosen, hdirs, Scanner.chosenFrom, hfind]
  dsimp only
  rw [Scanner.ask, hmeta]

/-- **One scan brings it one place forward**, if there is an id left. -/
theorem scan (h : rt.InLine view dir p) {c : Candidate} (hc : rt.next view = .ok (some c))
    (hq : c.path ∈ rt.ahead view dir p) (hseq : rt.ledger.seq < Ledger.MAX_ROWID) (utc : DateTime) :
    (rt.scanForWork view utc).2.InLine view dir p ∧
    (rt.scanForWork view utc).2.ledger.seq = rt.ledger.seq + 1 ∧
    ((rt.scanForWork view utc).2.ahead view dir p).card + 1 = (rt.ahead view dir p).card := by
  obtain ⟨hon, hadds⟩ := scanForWork_next hc hseq utc
  refine ⟨⟨?_, h.there, ?_, ?_⟩, hadds.seq, ?_⟩
  · rw [hon.scanDirs]
    exact h.first
  · rw [hon.cfg]
    exact h.entry
  · have hlisted := hadds.listed p
    rw [h.fresh, decide_eq_false (Scanner.mem_ahead hq)] at hlisted
    exact Option.not_isSome_iff_eq_none.1 (by rw [hlisted]; simp)
  · unfold SenderRuntime.ahead at hq ⊢
    rw [hon.cfg, Scanner.ahead_adds hadds]
    exact Finset.card_erase_add_one hq

/-- With an id for each file ahead of it, it is the candidate after as many scans. -/
theorem arrives : ∀ {n : Nat} {rt : SenderRuntime}, rt.InLine view dir p → (rt.ahead view dir p).card = n →
    n ≤ Ledger.MAX_ROWID - rt.ledger.seq → ∀ times : List DateTime, times.length = n →
    ∃ c, (scans crc view rt times).next view = .ok (some c) ∧ c.path = p
  | 0, rt, h, hn, _, times, ht => by
    rw [List.length_eq_zero_iff.1 ht]
    obtain ⟨c, hc, hq | ⟨-, hp⟩⟩ := h.next
    · rw [Finset.card_eq_zero.1 hn] at hq
      cases hq
    · exact ⟨c, hc, hp⟩
  | n + 1, rt, h, hn, hle, utc :: times, ht => by
    obtain ⟨c, hc, hq | ⟨hempty, -⟩⟩ := h.next
    · obtain ⟨h', hseq, hcard⟩ := h.scan hc hq (by omega) utc
      exact arrives h' (by omega) (by omega) times (Nat.succ.inj ht)
    · rw [hempty] at hn
      cases hn

theorem stuck : ∀ {times : List DateTime} {rt : SenderRuntime}, rt.InLine view dir p →
    Ledger.MAX_ROWID - rt.ledger.seq < (rt.ahead view dir p).card →
    ∀ c, (scans crc view rt times).next view = .ok (some c) → c.path ≠ p
  | [], rt, h, hlt, c, hc => by
    obtain ⟨c', hc', hq | ⟨hempty, -⟩⟩ := h.next
    · have hsame := hc'.symm.trans hc
      cases hsame
      exact Scanner.mem_ahead hq
    · rw [hempty, Finset.card_empty] at hlt
      exact absurd hlt (Nat.not_lt_zero _)
  | utc :: times, rt, h, hlt, c, hc => by
    obtain ⟨c', hc', hq | ⟨hempty, -⟩⟩ := h.next
    · by_cases hseq : rt.ledger.seq < Ledger.MAX_ROWID
      · obtain ⟨h', hseq', hcard⟩ := h.scan hc' hq hseq utc
        exact stuck h' (by omega) c hc
      · -- the scan fails, and so does every later one
        refine @stuck times rt h hlt c ?_
        have hstay : scans crc view rt (utc :: times) = scans crc view rt times :=
          congrArg (fun out => scans crc view out.2 times) (scanForWork_full hc' hseq utc)
        rw [← hstay]
        exact hc
    · rw [hempty, Finset.card_empty] at hlt
      exact absurd hlt (Nat.not_lt_zero _)

/-- **An eligible file is downlinked exactly when the ledger has an id for each file ahead of it.** -/
theorem downlinks_iff (h : rt.InLine view dir p) :
    Downlinks crc view rt p ↔ (rt.ahead view dir p).card ≤ Ledger.MAX_ROWID - rt.ledger.seq := by
  constructor
  · rintro ⟨n, hn⟩
    by_contra hlt
    obtain ⟨c, hc, hp⟩ := hn (List.replicate n 0) List.length_replicate
    exact h.stuck (Nat.lt_of_not_le hlt) c hc hp
  · intro hle
    exact ⟨_, h.arrives rfl hle⟩

end InLine

end SenderRuntime

/-! ## The snapshot's name -/

/-- `Path::join`. -/
def joinPath (dir name : Text) : Text := SenderRuntime.absolute (some dir) name

def statusDumps : Text := "status_dumps".toList

def snapshotName (now : Int) : Text := "files_sent_list_".toList ++ (Strings.showInt now ++ ".csv".toList)

/-- Where `dump_status_csv` writes, `now` seconds after 1970. -/
def snapshotPath (priorityDirs : List Text) (now : Int) : Text :=
  joinPath ((priorityDirs.head?.map (joinPath · statusDumps)).getD "/tmp/parachuter".toList) (snapshotName now)

theorem joinPath_eq (dir : Text) {name : Text} (h : name.head? ≠ some '/') : ∃ pre, joinPath dir name = pre ++ name ∧
    (pre = [] ∨ ∃ pre', pre = pre' ++ ['/']) := by
  unfold joinPath SenderRuntime.absolute
  rw [if_neg h]
  dsimp only
  split
  · rename_i hdir
    refine ⟨dir, rfl, hdir.imp id (fun hlast => ?_)⟩
    exact ⟨dir.dropLast, (List.dropLast_append_getLast? '/' hlast).symm⟩
  · exact ⟨dir ++ ['/'], by simp, .inr ⟨dir, rfl⟩⟩

theorem fileName_joinPath (dir : Text) {name : Text} (hslash : '/' ∉ name) (hplain : name ∉ [[], ['.'], ['.', '.']]) :
    Scanner.fileName (joinPath dir name) = name := by
  rw [List.mem_cons, List.mem_cons, List.mem_singleton, not_or, not_or] at hplain
  obtain ⟨hnil, hdot, hdots⟩ := hplain
  have hcomp : components name = [name] := by
    unfold components
    rw [List.splitOn_eq_singleton hslash]
    simp [hnil, hdot]
  have hlast : (components (joinPath dir name)).getLast? = some name := by
    obtain ⟨pre, heq, rfl | ⟨pre', rfl⟩⟩ := joinPath_eq dir (fun h => hslash (List.mem_of_head? h))
    · rw [heq, List.nil_append, hcomp]
      rfl
    · have hsplit : components (pre' ++ '/' :: name) = components pre' ++ components name := by
        unfold components
        rw [List.splitOn_append_cons_self, List.filter_append]
      rw [heq, List.append_assoc, List.singleton_append, hsplit, hcomp, List.getLast?_append]
      rfl
  unfold Scanner.fileName
  rw [hlast]
  dsimp only
  rw [if_neg hdots]

theorem slash_notMem_snapshotName (now : Int) : '/' ∉ snapshotName now := by
  unfold snapshotName
  intro h
  rcases List.mem_append.1 h with h | h
  · exact absurd h (by decide)
  rcases List.mem_append.1 h with h | h
  · rcases Strings.mem_showInt h with h | h
    · exact absurd h (by decide)
    · exact absurd h (by decide)
  · exact absurd h (by decide)

theorem snapshotName_plain (now : Int) : snapshotName now ∉ [[], ['.'], ['.', '.']] := by
  have hhead : (snapshotName now).head? = some 'f' := rfl
  intro h
  rw [List.mem_cons, List.mem_cons, List.mem_singleton] at h
  rcases h with h | h | h <;> (rw [h] at hhead; cases hhead)

theorem getLast?_snapshotName (now : Int) : (snapshotName now).getLast? = some 'v' := by
  have hne : ".csv".toList ≠ [] := by decide
  unfold snapshotName
  rw [List.getLast?_append_of_ne_nil _ (List.append_ne_nil_of_right_ne_nil _ hne), List.getLast?_append_of_ne_nil _ hne]
  decide

theorem snapshotPath_eq (priorityDirs : List Text) (now : Int) : ∃ dir pre,
    snapshotPath priorityDirs now = joinPath dir (snapshotName now) ∧
    snapshotPath priorityDirs now = pre ++ snapshotName now := by
  have hslash : (snapshotName now).head? ≠ some '/' := fun h => slash_notMem_snapshotName now (List.mem_of_head? h)
  obtain ⟨pre, hpre, -⟩ := joinPath_eq ((priorityDirs.head?.map (joinPath · statusDumps)).getD "/tmp/parachuter".toList)
    hslash
  exact ⟨_, pre, rfl, hpre⟩

/-! ## The filters on that name -/

/-- An entry of a filter list that means `.csv`. -/
def SpellsCsv (ext : Text) : Prop := Scanner.lower (ext.dropWhile (· = '.')) = "csv".toList

instance (ext : Text) : Decidable (SpellsCsv ext) :=
  inferInstanceAs (Decidable (Scanner.lower (ext.dropWhile (· = '.')) = "csv".toList))

/-- What follows the only `c` of a list. -/
theorem cons_suffix_iff {α : Type} {c : α} {as bs xs : List α} (ha : c ∉ as) (hb : c ∉ bs) :
    c :: xs <:+ as ++ c :: bs ↔ xs = bs := by
  constructor
  · rintro ⟨t, ht⟩
    rw [eq_comm, List.append_cons_inj_of_notMem ha hb] at ht
    exact ht.2.2.symm
  · rintro rfl
    exact List.suffix_append as _

theorem toLower_of_isDigit {c : Char} (h : c.isDigit = true) : c.toLower = c := by
  rw [Char.isDigit, Bool.and_eq_true, decide_eq_true_iff, decide_eq_true_iff] at h
  unfold Char.toLower
  rw [dif_neg]
  intro hup
  exact absurd (UInt32.le_trans hup.1 h.2) (by decide)

/-- **An entry matches the snapshot exactly when it spells `csv`**, whenever the snapshot was taken. -/
theorem matchesExtension_snapshot (priorityDirs : List Text) (now : Int) (ext : Text) :
    Scanner.matchesExtension (snapshotPath priorityDirs now) ext = true ↔ SpellsCsv ext := by
  have hname : Scanner.fileName (snapshotPath priorityDirs now) = snapshotName now := by
    obtain ⟨dir, -, hdir, -⟩ := snapshotPath_eq priorityDirs now
    rw [hdir]
    exact fileName_joinPath dir (slash_notMem_snapshotName now) (snapshotName_plain now)
  have hlower : Scanner.lower (snapshotName now) =
      ("files_sent_list_".toList ++ Scanner.lower (Strings.showInt now)) ++ '.' :: "csv".toList := by
    unfold snapshotName Scanner.lower
    rw [List.map_append, List.map_append, List.append_assoc]
    rfl
  have hdot : '.' ∉ "files_sent_list_".toList ++ Scanner.lower (Strings.showInt now) := by
    intro h
    rcases List.mem_append.1 h with h | h
    · exact absurd h (by decide)
    · obtain ⟨c, hc, hlow⟩ := List.mem_map.1 h
      rcases Strings.mem_showInt hc with rfl | hdigit
      · exact absurd hlow (by decide)
      · rw [toLower_of_isDigit hdigit] at hlow
        rw [hlow] at hdigit
        exact absurd hdigit (by decide)
  unfold Scanner.matchesExtension SpellsCsv
  rw [hname, hlower]
  dsimp only
  split
  · rename_i hempty
    rw [List.isEmpty_iff.1 hempty]
    decide
  · rw [decide_eq_true_iff, cons_suffix_iff hdot (by decide)]

theorem extensionAllowed_snapshot (priorityDirs : List Text) (now : Int) (incl skip : List Text) :
    Scanner.extensionAllowed (snapshotPath priorityDirs now) incl skip = true ↔
      (∀ e ∈ skip, ¬ SpellsCsv e) ∧ (incl = [] ∨ ∃ e ∈ incl, SpellsCsv e) := by
  have hnot : ∀ e, Scanner.matchesExtension (snapshotPath priorityDirs now) e = false ↔ ¬ SpellsCsv e := by
    intro e
    rw [← matchesExtension_snapshot priorityDirs now e, Bool.not_eq_true]
  simp only [Scanner.extensionAllowed_iff, hnot, matchesExtension_snapshot]

theorem isBeingCompressed_snapshot (v : DirView) (priorityDirs : List Text) (now : Int) :
    Scanner.isBeingCompressed v (snapshotPath priorityDirs now) = false := by
  obtain ⟨-, pre, -, hpath⟩ := snapshotPath_eq priorityDirs now
  have hlast : (snapshotPath priorityDirs now).getLast? = some 'v' := by
    rw [hpath, List.getLast?_append, getLast?_snapshotName]
    rfl
  have hstrip : ∀ ext : Text, ext ≠ [] → ext.getLast? ≠ some 'v' →
      Scanner.stripSuffix (snapshotPath priorityDirs now) ext = none := by
    intro ext hne hext
    unfold Scanner.stripSuffix
    rw [if_neg]
    rintro ⟨t, ht⟩
    rw [← ht, List.getLast?_append_of_ne_nil _ hne] at hlast
    exact hext hlast
  unfold Scanner.isBeingCompressed
  rw [hstrip ".bz2".toList (by decide) (by decide), hstrip ".gz".toList (by decide) (by decide)]

/-! ## The tree it is written into -/

/-- What the scanner reads of a file; the modification time in seconds. -/
structure FileInfo where
  size      : UInt64
  createdAt : DateTime
  modified  : Nat
  deriving DecidableEq, Repr

/-- What listing a directory gives.  `other` is a name with no regular file at or below it that the walk would come to: a
link, a socket, a directory that cannot be listed. -/
inductive DirTree
  | empty
  | file (name : Text) (info : FileInfo) (rest : DirTree)
  | dir (name : Text) (below rest : DirTree)
  | other (name : Text) (rest : DirTree)
  deriving DecidableEq, Repr

namespace DirTree

/-- The regular files at and below a directory, by their paths. -/
def files (base : Text) : DirTree → List (Text × FileInfo)
  | empty               => []
  | file name info rest => (joinPath base name, info) :: rest.files base
  | dir name below rest => below.files (joinPath base name) ++ rest.files base
  | other _ rest        => rest.files base

/-- What `WalkDir::new` yields; there is no directory with an empty name. -/
def walked (base : Text) (t : DirTree) : List (Text × FileInfo) := if base = [] then [] else t.files base

/-- A file is created in a directory, or replaced. -/
def put (new : Text) (info : FileInfo) : DirTree → Option DirTree
  | empty               => some (file new info empty)
  | file name old rest  => if name = new then some (file new info rest) else (rest.put new info).map (file name old)
  | dir name below rest => if name = new then none else (rest.put new info).map (dir name below)
  | other name rest     => if name = new then none else (rest.put new info).map (other name)

/-- A file is created in the subdirectory `sub`, which is made where it is not there; nothing, where something that the
walk does not enter is in the way. -/
def putBelow (sub new : Text) (info : FileInfo) : DirTree → Option DirTree
  | empty               => some (dir sub (file new info empty) empty)
  | file name old rest  => if name = sub then none else (rest.putBelow sub new info).map (file name old)
  | dir name below rest =>
    if name = sub then (below.put new info).map (fun below => dir name below rest)
    else (rest.putBelow sub new info).map (dir name below)
  | other name rest     => if name = sub then none else (rest.putBelow sub new info).map (other name)

/-- The tree below the first priority directory once `dump_status_csv` has written there. -/
def dumpStatusCsv (now : Int) (info : FileInfo) (t : DirTree) : Option DirTree :=
  t.putBelow statusDumps (snapshotName now) info

variable {sub new base : Text} {info : FileInfo}

theorem mem_files_put : ∀ {t t' : DirTree}, t.put new info = some t' → (joinPath base new, info) ∈ t'.files base
  | empty, _, h => by
    cases h
    exact List.mem_cons_self
  | file name old rest, _, h => by
    unfold put at h
    split at h
    · cases h
      exact List.mem_cons_self
    · obtain ⟨rest', hrest, rfl⟩ := Option.map_eq_some_iff.1 h
      exact List.mem_cons_of_mem _ (mem_files_put hrest)
  | dir name below rest, _, h => by
    unfold put at h
    split at h
    · cases h
    · obtain ⟨rest', hrest, rfl⟩ := Option.map_eq_some_iff.1 h
      exact List.mem_append_right _ (mem_files_put hrest)
  | other name rest, _, h => by
    unfold put at h
    split at h
    · cases h
    · obtain ⟨rest', hrest, rfl⟩ := Option.map_eq_some_iff.1 h
      have hmem : (joinPath base new, info) ∈ rest'.files base := mem_files_put hrest
      exact hmem

/-- **The walk comes to what was written.** -/
theorem mem_files_putBelow : ∀ {t t' : DirTree}, t.putBelow sub new info = some t' →
    (joinPath (joinPath base sub) new, info) ∈ t'.files base
  | empty, _, h => by
    cases h
    exact List.mem_append_left _ List.mem_cons_self
  | file name old rest, _, h => by
    unfold putBelow at h
    split at h
    · cases h
    · obtain ⟨rest', hrest, rfl⟩ := Option.map_eq_some_iff.1 h
      exact List.mem_cons_of_mem _ (mem_files_putBelow hrest)
  | dir name below rest, _, h => by
    unfold putBelow at h
    split at h
    · rename_i hname
      obtain ⟨below', hbelow, rfl⟩ := Option.map_eq_some_iff.1 h
      rw [hname]
      exact List.mem_append_left _ (mem_files_put hbelow)
    · obtain ⟨rest', hrest, rfl⟩ := Option.map_eq_some_iff.1 h
      exact List.mem_append_right _ (mem_files_putBelow hrest)
  | other name rest, _, h => by
    unfold putBelow at h
    split at h
    · cases h
    · obtain ⟨rest', hrest, rfl⟩ := Option.map_eq_some_iff.1 h
      have hmem : (joinPath (joinPath base sub) new, info) ∈ rest'.files base := mem_files_putBelow hrest
      exact hmem

end DirTree

/-- What a scan sees of files that stay as they are; any path may exist besides. -/
def DirView.still (files : List (Text × FileInfo)) (existing : Text → Bool) : DirView where
  walk := files.map Prod.fst
  existing := existing
  modified p := (files.lookup p).map FileInfo.modified
  metadata p := (files.lookup p).map (fun info => (info.size, info.createdAt))

theorem DirView.metadata_still {files : List (Text × FileInfo)} {existing : Text → Bool} {p : Text}
    (h : p ∈ (DirView.still files existing).walk) : (DirView.still files existing).metadata p ≠ none := by
  obtain ⟨⟨q, info⟩, hmem, rfl⟩ := List.mem_map.1 h
  intro hnone
  rw [DirView.still, Option.map_eq_none_iff, List.lookup_eq_none_iff] at hnone
  have hne := hnone _ hmem
  simp at hne

/-- **A snapshot is downlinked exactly when** the filters let `.csv` through, its path is not in the ledger yet, and the
ledger has an id left for each file the scanner comes to before it. -/
theorem snapshot_downlinked_iff (crc : Bytes → UInt32) {rt : SenderRuntime} (hauto : rt.state = .auto) {dir : Text}
    {dirs : List Text} (hdirs : rt.cfg.current.sender.priorityDirs = dir :: dirs) (hdir : dir ≠ []) {t t' : DirTree}
    {now : Int} {info : FileInfo} (hdump : t.dumpStatusCsv now info = some t') {files : List (Text × FileInfo)}
    (hfiles : files.Perm (t'.walked dir)) {view : Nat → Text → DirView} {existing : Text → Bool}
    (hview : view 0 dir = .still files existing) :
    Downlinks crc view rt (snapshotPath (dir :: dirs) now) ↔
      (∀ e ∈ rt.cfg.current.sender.skipExtensions, ¬ SpellsCsv e) ∧
      (rt.cfg.current.sender.includeExtensions = [] ∨ ∃ e ∈ rt.cfg.current.sender.includeExtensions, SpellsCsv e) ∧
      rt.ledger.getByName (snapshotPath (dir :: dirs) now) = none ∧
      (rt.ahead view dir (snapshotPath (dir :: dirs) now)).card ≤ Ledger.MAX_ROWID - rt.ledger.seq := by
  have hscan : rt.scanDirs = dir :: dirs := by
    unfold SenderRuntime.scanDirs
    rw [hauto, if_neg (by decide), hdirs]
  have hwalk : snapshotPath (dir :: dirs) now ∈ (view 0 dir).walk := by
    have hmem : (snapshotPath (dir :: dirs) now, info) ∈ t'.walked dir := by
      unfold DirTree.walked
      rw [if_neg hdir]
      exact DirTree.mem_files_putBelow hdump
    rw [hview]
    exact List.mem_map_of_mem (hfiles.mem_iff.2 hmem)
  have hline : Scanner.extensionAllowed (snapshotPath (dir :: dirs) now) rt.cfg.current.sender.includeExtensions
      rt.cfg.current.sender.skipExtensions = true → rt.ledger.getByName (snapshotPath (dir :: dirs) now) = none →
      rt.InLine view dir (snapshotPath (dir :: dirs) now) := by
    intro hallowed hnew
    refine ⟨⟨dirs, hscan⟩, ?_, Scanner.mem_entries.2 ⟨hwalk, isBeingCompressed_snapshot _ _ now, hallowed⟩, hnew⟩
    rw [hview]
    exact fun q hq => DirView.metadata_still hq
  constructor
  · intro h
    obtain ⟨hnew, hallowed, -⟩ := h.entry
    obtain ⟨hskip, hincl⟩ := (extensionAllowed_snapshot _ now _ _).1 hallowed
    exact ⟨hskip, hincl, hnew, (hline hallowed hnew).downlinks_iff.1 h⟩
  · rintro ⟨hskip, hincl, hnew, hcard⟩
    exact (hline ((extensionAllowed_snapshot _ now _ _).2 ⟨hskip, hincl⟩) hnew).downlinks_iff.2 hcard

/-! ## One file and the snapshot -/

namespace Csv

/-- The default config with these directories and filters. -/
def config (priorityDirs incl skip : List Text) : LiveConfig where
  current := { Config.default with
    sender := { Config.default.sender with
      priorityDirs := priorityDirs, includeExtensions := incl, skipExtensions := skip } }
  valid := Config.validate_default

def start (priorityDirs incl skip : List Text) (ledger : Ledger) : SenderRuntime :=
  .new (config priorityDirs incl skip) ledger 0 0

/-- A directory with one file in it. -/
def tree : DirTree := .file "a".toList ⟨40, 0, 1⟩ .empty

/-- It and the snapshot taken ten seconds after 1970. -/
def dumped : DirTree :=
  .file "a".toList ⟨40, 0, 1⟩ (.dir statusDumps (.file (snapshotName 10) ⟨99, 10, 10⟩ .empty) .empty)

def view (base : Text) (t : DirTree) : Nat → Text → DirView := fun _ _ => .still (t.walked base) (fun _ => false)

/-- The last id is given. -/
def full : Ledger :=
  { Ledger.empty with seq := Ledger.MAX_ROWID, bound := Ledger.empty_rows_nil }

/-- The snapshot was sent before. -/
def sent : Ledger :=
  Ledger.empty.insert ⟨0, snapshotPath ["/q".toList] 10, 99, 10, 0, 0, 0, true, 1000, none, none⟩ Ledger.empty_room rfl

theorem dump_tree : tree.dumpStatusCsv 10 ⟨99, 10, 10⟩ = some dumped := by decide +kernel

theorem line : (start ["/q".toList] [] [] full).InLine (view "/q".toList dumped) "/q".toList
    (snapshotPath ["/q".toList] 10) where
  first := ⟨[], rfl⟩
  there := fun q hq => DirView.metadata_still hq
  entry := by decide +kernel
  fresh := rfl

end Csv

/-- With no filters, an empty ledger and one file older than it, it is the candidate of the second scan. -/
theorem snapshot_downlinked_second :
    Downlinks crc32 (Csv.view "/q".toList Csv.dumped) (Csv.start ["/q".toList] [] [] .empty)
      (snapshotPath ["/q".toList] 10) := by
  refine (snapshot_downlinked_iff crc32 rfl rfl (by decide) Csv.dump_tree (.refl _) rfl).2
    ⟨by decide, .inl rfl, rfl, ?_⟩
  decide +kernel

/-- **A filter on `csv`, an earlier row of that path or a full ledger keeps the snapshot on board**, and so does a
`status_dumps` that the walk does not enter and a directory without a name. -/
theorem snapshot_not_downlinked :
    (¬ Downlinks crc32 (Csv.view "/q".toList Csv.dumped) (Csv.start ["/q".toList] [] [".CSV".toList] .empty)
      (snapshotPath ["/q".toList] 10)) ∧
    (¬ Downlinks crc32 (Csv.view "/q".toList Csv.dumped)
      (Csv.start ["/q".toList] ["fits".toList, "fits.bz2".toList] [] .empty) (snapshotPath ["/q".toList] 10)) ∧
    (¬ Downlinks crc32 (Csv.view "/q".toList Csv.dumped) (Csv.start ["/q".toList] [] [] Csv.sent)
      (snapshotPath ["/q".toList] 10)) ∧
    (¬ Downlinks crc32 (Csv.view "/q".toList Csv.dumped) (Csv.start ["/q".toList] [] [] Csv.full)
      (snapshotPath ["/q".toList] 10)) ∧
    (¬ Downlinks crc32 (Csv.view "/q".toList (.other statusDumps .empty)) (Csv.start ["/q".toList] [] [] .empty)
      (snapshotPath ["/q".toList] 10)) ∧
    ¬ Downlinks crc32 (Csv.view [] Csv.dumped) (Csv.start [[]] [] [] .empty) (snapshotPath [[]] 10) := by
  refine ⟨fun h => ?_, fun h => ?_, fun h => ?_, fun h => ?_, fun h => ?_, fun h => ?_⟩
  · obtain ⟨-, hallowed, -⟩ := h.entry
    exact ((extensionAllowed_snapshot _ 10 _ _).1 hallowed).1 ".CSV".toList List.mem_cons_self (by decide)
  · obtain ⟨-, hallowed, -⟩ := h.entry
    exact absurd ((extensionAllowed_snapshot _ 10 _ _).1 hallowed).2 (by decide)
  · exact absurd h.entry.1 (by decide +kernel)
  · -- the file from before the snapshot never gets an id
    obtain ⟨n, hn⟩ := h
    obtain ⟨c, hc, hp⟩ := hn (List.replicate n 0) List.length_replicate
    refine Csv.line.stuck ?_ c hc hp
    decide +kernel
  · obtain ⟨-, -, j, dir, -, hwalk⟩ := h.entry
    cases hwalk
  · obtain ⟨-, -, j, dir, -, hwalk⟩ := h.entry
    cases hwalk

end Parachuter
