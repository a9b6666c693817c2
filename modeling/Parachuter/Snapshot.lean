import Parachuter.Lib.Strings
import Parachuter.Reconcile
/-!
# Snapshots — the ledger written as CSV (`Ledger::dump_csv`) and read back (`reconcile::parse_snapshot`)

The writer quotes a name that holds a comma, a quote or a line feed.  The reader takes the text line by line before it
looks at quotes, so a quoted line feed ends its row.  Times are written and read by `chrono`; its two functions are a
parameter, and what is asked of them is asked of the times at hand (`Rfc3339.Inverse`).
-/
namespace Parachuter

open Strings (lines stripCr isBlank digits showInt parseUnsigned parseSigned)

/-- `DateTime::to_rfc3339` and `DateTime::parse_from_rfc3339`. -/
structure Rfc3339 where
  toRfc3339        : DateTime → Text
  parseFromRfc3339 : Text → Option DateTime

/-- The time reads back, from a text of digits and RFC 3339's punctuation. -/
structure Rfc3339.Inverse (time : Rfc3339) (t : DateTime) : Prop where
  parse : time.parseFromRfc3339 (time.toRfc3339 t) = some t
  ne    : time.toRfc3339 t ≠ []
  chars : ∀ c ∈ time.toRfc3339 t, c ≠ ',' ∧ c ≠ '"' ∧ c ≠ '\n' ∧ c ≠ '\r'

/-! ## Writing -/

/-- A quote inside quotes is doubled. -/
def doubled (c : Char) : Text := if c = '"' then ['"', '"'] else [c]

def csvEscape (s : Text) : Text :=
  if s.contains ',' || s.contains '"' || s.contains '\n' then '"' :: (s.flatMap doubled ++ ['"']) else s

/-- Fields with commas between them. -/
def joined : List Text → Text
  | []           => []
  | [f]          => f
  | f :: g :: fs => f ++ ',' :: joined (g :: fs)

def COLUMNS : List String := ["file_id", "file_name", "file_size", "created_at", "images_per_dark", "images_per_flat",
  "images_per_bias", "still_exists", "chunk_size", "sha256", "queued_at"]

def csvFields (time : Rfc3339) (r : FileRecord) : List Text :=
  [showInt r.fileId.toInt, csvEscape r.fileName, digits r.fileSize.toNat, time.toRfc3339 r.createdAt,
    digits r.imagesPerDark.toNat, digits r.imagesPerFlat.toNat, digits r.imagesPerBias.toNat,
    if r.stillExists then ['t'] else ['f'], digits r.chunkSize.toNat, r.sha256.getD [],
    (r.queuedAt.map time.toRfc3339).getD []]

/-- `dump_csv`, as far as what it writes. -/
def Ledger.dumpCsv (time : Rfc3339) (l : Ledger) : Text :=
  (joined (COLUMNS.map String.toList) :: l.all.map (fun r => joined (csvFields time r))).flatMap (· ++ ['\n'])

/-! ## Reading -/

namespace Reconcile

/-- The loop of `split_csv_line`, over the characters left, with `quoted`, `cur` and `out`. -/
def splitCsvLine.go : Text → Bool → Text → List Text → List Text
  | [], _, cur, out                     => out ++ [cur]
  | '"' :: '"' :: chars, true, cur, out => splitCsvLine.go chars true (cur ++ ['"']) out
  | '"' :: chars, quoted, cur, out      => splitCsvLine.go chars (!quoted) cur out
  | ',' :: chars, false, cur, out       => splitCsvLine.go chars false [] (out ++ [cur])
  | c :: chars, quoted, cur, out        => splitCsvLine.go chars quoted (cur ++ [c]) out

def splitCsvLine (line : Text) : List Text := splitCsvLine.go line false [] []

/-- `str::parse::<i64>`. -/
def parseI64 (s : Text) : Option Int64 :=
  (parseSigned s).bind (fun n => if -2 ^ 63 ≤ n ∧ n < 2 ^ 63 then some (Int64.ofInt n) else none)

/-- `str::parse::<u64>`. -/
def parseU64 (s : Text) : Option UInt64 :=
  (parseUnsigned s).bind (fun n => if n < 2 ^ 64 then some (UInt64.ofNat n) else none)

/-- Where the columns are; the first three have to be there. -/
structure Columns where
  fileId      : Nat
  fileName    : Nat
  fileSize    : Nat
  createdAt   : Option Nat
  stillExists : Option Nat
  queuedAt    : Option Nat
  deriving DecidableEq, Repr

def columns (header : Text) : Option Columns :=
  let cols := splitCsvLine header
  let idx (name : String) := cols.findIdx? (fun c => decide (c = name.toList))
  match idx "file_id", idx "file_name", idx "file_size" with
  | some a, some b, some c => some ⟨a, b, c, idx "created_at", idx "still_exists", idx "queued_at"⟩
  | _, _, _                => none

def timeField (time : Rfc3339) (f : List Text) (i : Option Nat) : Option DateTime :=
  ((i.bind (fun i => f[i]?)).filter (fun s => !s.isEmpty)).bind time.parseFromRfc3339

def existsField (f : List Text) (i : Option Nat) : Bool :=
  ((i.bind (fun i => f[i]?)).map (fun s => decide (s ≠ "f".toList ∧ s ≠ "0".toList ∧ s ≠ "false".toList))).getD true

def badRow (n : Nat) : Error := .badConfig ("ledger snapshot row " ++ toString (n + 2) ++ " is malformed")

def parseRow (time : Rfc3339) (cols : Columns) (n : Nat) (line : Text) : Except Error SnapshotRow :=
  let f := splitCsvLine line
  match f[cols.fileId]?.bind parseI64, f[cols.fileName]?, f[cols.fileSize]?.bind parseU64 with
  | some id, some name, some size =>
    .ok ⟨id, name, size, timeField time f cols.createdAt, existsField f cols.stillExists, timeField time f cols.queuedAt⟩
  | _, _, _                       => .error (badRow n)

def parseRows (time : Rfc3339) (cols : Columns) : Nat → List Text → Except Error (List SnapshotRow)
  | _, []            => .ok []
  | n, line :: lines =>
    match parseRow time cols n line with
    | .error e => .error e
    | .ok row  =>
      match parseRows time cols (n + 1) lines with
      | .error e => .error e
      | .ok rows => .ok (row :: rows)

def parseSnapshot (time : Rfc3339) (text : Text) : Except Error (List SnapshotRow) :=
  match (lines text).filter (fun l => !isBlank l) with
  | []              => .error (.badConfig "empty ledger snapshot")
  | header :: lines =>
    match columns header with
    | none      => .error (.badConfig "ledger snapshot is missing file_id, file_name or file_size")
    | some cols => parseRows time cols 0 lines

end Reconcile

/-- The row a snapshot should give of a record. -/
def FileRecord.snapshotRow (r : FileRecord) : SnapshotRow :=
  ⟨r.fileId, r.fileName, r.fileSize, some r.createdAt, r.stillExists, r.queuedAt⟩

namespace Reconcile

/-! ## Fields -/

/-- The reader takes the field `t`, up to a comma or the end, as the value `v`. -/
def Reads (t v : Text) : Prop := ∀ rest out, (rest = [] ∨ ∃ s, rest = ',' :: s) →
  splitCsvLine.go (t ++ rest) false [] out = splitCsvLine.go rest false v out

theorem go_other {c : Char} (hq : c ≠ '"') {quoted : Bool} (hc : c = ',' → quoted = true) (chars cur : Text)
    (out : List Text) : splitCsvLine.go (c :: chars) quoted cur out = splitCsvLine.go chars quoted (cur ++ [c]) out := by
  rw [splitCsvLine.go]
  · exact hq
  · rintro chars' - rfl -
    exact hq rfl
  · rintro rfl rfl
    exact absurd (hc rfl) Bool.false_ne_true

theorem go_plain {t : Text} (h : ∀ c ∈ t, c ≠ ',' ∧ c ≠ '"') (rest : Text) (out : List Text) : ∀ cur : Text,
    splitCsvLine.go (t ++ rest) false cur out = splitCsvLine.go rest false (cur ++ t) out := by
  induction t with
  | nil =>
    intro cur
    rw [List.nil_append, List.append_nil]
  | cons c t ih =>
    intro cur
    obtain ⟨hc, hq⟩ := h c List.mem_cons_self
    rw [List.cons_append, go_other hq (fun he => absurd he hc), ih (fun c' h' => h c' (List.mem_cons_of_mem _ h')),
      List.append_assoc, List.singleton_append]

theorem reads_plain {t : Text} (h : ∀ c ∈ t, c ≠ ',' ∧ c ≠ '"') : Reads t t := fun rest out _ => go_plain h rest out []

theorem go_doubled (s rest : Text) (out : List Text) : ∀ cur : Text,
    splitCsvLine.go (s.flatMap doubled ++ rest) true cur out = splitCsvLine.go rest true (cur ++ s) out := by
  induction s with
  | nil =>
    intro cur
    rw [List.flatMap_nil, List.nil_append, List.append_nil]
  | cons c s ih =>
    intro cur
    rw [List.flatMap_cons, List.append_assoc, doubled]
    by_cases hc : c = '"'
    · rw [if_pos hc, hc, List.cons_append, List.cons_append, List.nil_append, splitCsvLine.go, ih, List.append_assoc,
        List.singleton_append]
    · rw [if_neg hc, List.singleton_append, go_other hc (fun _ => rfl), ih, List.append_assoc, List.singleton_append]

theorem reads_csvEscape (s : Text) : Reads (csvEscape s) s := by
  unfold csvEscape
  split
  · intro rest out hrest
    have hopen : splitCsvLine.go ('"' :: (s.flatMap doubled ++ ['"']) ++ rest) false [] out =
        splitCsvLine.go (s.flatMap doubled ++ '"' :: rest) true [] out := by
      rw [List.cons_append, List.append_assoc, List.singleton_append, splitCsvLine.go]
      · rfl
      · exact fun _ h _ => Bool.false_ne_true h
    rw [hopen, go_doubled, List.nil_append]
    -- the closing quote is not followed by another
    rcases hrest with rfl | ⟨rest', rfl⟩
    · rfl
    · rfl
  · rename_i h
    simp only [Bool.or_eq_true, not_or, List.contains_iff_mem] at h
    refine reads_plain (fun c hc => ⟨?_, ?_⟩)
    · rintro rfl
      exact h.1.1 hc
    · rintro rfl
      exact h.1.2 hc

theorem go_joined {ts vs : List Text} (h : List.Forall₂ Reads ts vs) (hne : ts ≠ []) : ∀ out : List Text,
    splitCsvLine.go (joined ts) false [] out = out ++ vs := by
  induction h with
  | nil => exact absurd rfl hne
  | @cons t v ts vs hr hrs ih =>
    intro out
    cases ts with
    | nil =>
      cases hrs
      have := hr [] out (.inl rfl)
      rw [List.append_nil] at this
      rw [joined, this, splitCsvLine.go]
    | cons t' ts =>
      rw [joined, hr _ out (.inr ⟨_, rfl⟩), splitCsvLine.go, ih (List.cons_ne_nil _ _), List.append_assoc,
        List.singleton_append]

/-- **Fields written one by one are read one by one.** -/
theorem splitCsvLine_joined {ts vs : List Text} (h : List.Forall₂ Reads ts vs) (hne : ts ≠ []) :
    splitCsvLine (joined ts) = vs := go_joined h hne []

/-- **The splitter undoes the quoting**, whatever the texts in the row are. -/
theorem splitCsvLine_csvEscape (fields : List Text) (h : fields ≠ []) :
    splitCsvLine (joined (fields.map csvEscape)) = fields := by
  refine splitCsvLine_joined ?_ (mt List.map_eq_nil_iff.1 h)
  rw [List.forall₂_map_left_iff]
  exact List.forall₂_same.2 (fun s _ => reads_csvEscape s)

/-- A quote alone, a comma next to quotes, a line feed, and an empty field at the end. -/
theorem splitCsvLine_csvEscape_quotes :
    splitCsvLine (joined (["\"".toList, "a\",\"\n".toList, []].map csvEscape)) = ["\"".toList, "a\",\"\n".toList, []] :=
  splitCsvLine_csvEscape ["\"".toList, "a\",\"\n".toList, []] (List.cons_ne_nil _ _)

theorem mem_joined {c : Char} : ∀ {ts : List Text}, c ∈ joined ts → c = ',' ∨ ∃ t ∈ ts, c ∈ t
  | [], h           => by cases h
  | [t], h          => .inr ⟨t, List.mem_singleton_self t, h⟩
  | t :: t' :: ts, h => by
    rw [joined, List.mem_append, List.mem_cons] at h
    rcases h with h | h | h
    · exact .inr ⟨t, List.mem_cons_self, h⟩
    · exact .inl h
    · rcases mem_joined h with h | ⟨s, hs, hc⟩
      · exact .inl h
      · exact .inr ⟨s, List.mem_cons_of_mem _ hs, hc⟩

theorem joined_concat {t : Text} : ∀ {ts : List Text}, ts ≠ [] → joined (ts ++ [t]) = joined ts ++ ',' :: t
  | [], h           => absurd rfl h
  | [s], _          => rfl
  | s :: s' :: ts, _ => by
    rw [List.cons_append, List.cons_append, joined, joined, ← List.cons_append,
      joined_concat (List.cons_ne_nil s' ts), List.append_assoc, List.cons_append]

/-! ## Rows -/

theorem parseI64_showInt (id : Int64) : parseI64 (showInt id.toInt) = some id := by
  have hlo := id.le_toInt
  have hhi := id.toInt_lt
  rw [parseI64, Strings.parseSigned_showInt, Option.bind_some, if_pos ⟨hlo, hhi⟩, Int64.ofInt_toInt]

theorem parseU64_digits (n : UInt64) : parseU64 (digits n.toNat) = some n := by
  rw [parseU64, Strings.parseUnsigned_digits, Option.bind_some, if_pos n.toNat_lt, UInt64.ofNat_toNat]

/-- What a record may hold besides its name: times that read back, and a digest, if any, of letters and digits. -/
structure Dumpable (time : Rfc3339) (r : FileRecord) : Prop where
  created : time.Inverse r.createdAt
  queued  : ∀ t ∈ r.queuedAt, time.Inverse t
  sha256  : ∀ s ∈ r.sha256, ∀ c ∈ s, c.isAlphanum = true

/-- What stands for nothing in a CSV line or between lines. -/
def Plain (t : Text) : Prop := ∀ c ∈ t, c ≠ ',' ∧ c ≠ '"' ∧ c ≠ '\n' ∧ c ≠ '\r'

theorem Plain.reads {t : Text} (h : Plain t) : Reads t t := reads_plain (fun c hc => ⟨(h c hc).1, (h c hc).2.1⟩)

theorem plain_of_alphanum {t : Text} (h : ∀ c ∈ t, c.isAlphanum = true) : Plain t := by
  intro c hc
  have hcc := h c hc
  refine ⟨?_, ?_, ?_, ?_⟩ <;> (rintro rfl; exact absurd hcc (by decide))

theorem plain_digits (n : Nat) : Plain (digits n) := by
  refine plain_of_alphanum (fun c hc => ?_)
  rw [Char.isAlphanum, Strings.isDigit_of_mem_digits hc, Bool.or_true]

theorem plain_showInt (i : Int) : Plain (showInt i) := by
  cases i with
  | ofNat n => exact plain_digits n
  | negSucc n =>
    intro c hc
    rcases List.mem_cons.1 hc with rfl | hc
    · decide
    · exact plain_digits (n + 1) c hc

variable {time : Rfc3339} {r : FileRecord}

theorem Dumpable.plain_sha256 (h : Dumpable time r) : Plain (r.sha256.getD []) := by
  cases hs : r.sha256 with
  | none => exact fun c hc => by cases hc
  | some s => exact plain_of_alphanum (h.sha256 s hs)

theorem Dumpable.plain_queued (h : Dumpable time r) : Plain ((r.queuedAt.map time.toRfc3339).getD []) := by
  cases hq : r.queuedAt with
  | none => exact fun c hc => by cases hc
  | some t => exact (h.queued t hq).chars

theorem plain_flag (b : Bool) : Plain (if b then ['t'] else ['f']) := by
  refine plain_of_alphanum (fun c hc => ?_)
  cases b with
  | true =>
    rw [if_pos rfl, List.mem_singleton] at hc
    rw [hc]
    decide
  | false =>
    rw [if_neg Bool.false_ne_true, List.mem_singleton] at hc
    rw [hc]
    decide

/-- The fields after the id and the name. -/
def laterFields (time : Rfc3339) (r : FileRecord) : List Text := (csvFields time r).drop 2

theorem csvFields_eq (time : Rfc3339) (r : FileRecord) :
    csvFields time r = showInt r.fileId.toInt :: csvEscape r.fileName :: laterFields time r := rfl

theorem Dumpable.plain (h : Dumpable time r) {t : Text} (ht : t ∈ laterFields time r) : Plain t := by
  simp only [laterFields, csvFields, List.drop_succ_cons, List.drop_zero, List.mem_cons, List.not_mem_nil, or_false] at ht
  rcases ht with rfl | rfl | rfl | rfl | rfl | rfl | rfl | rfl | rfl
  · exact plain_digits _
  · exact h.created.chars
  · exact plain_digits _
  · exact plain_digits _
  · exact plain_digits _
  · exact plain_flag _
  · exact plain_digits _
  · exact h.plain_sha256
  · exact h.plain_queued

/-- What the reader makes of a record's fields: the name without its quotes. -/
theorem Dumpable.splitCsvLine (h : Dumpable time r) : splitCsvLine (joined (csvFields time r)) =
    showInt r.fileId.toInt :: r.fileName :: laterFields time r := by
  rw [csvFields_eq]
  refine splitCsvLine_joined (.cons (plain_showInt _).reads (.cons (reads_csvEscape _) ?_)) (List.cons_ne_nil _ _)
  exact List.forall₂_same.2 (fun t ht => (h.plain ht).reads)

/-- The columns as the writer has them. -/
def written : Columns := ⟨0, 1, 2, some 3, some 7, some 10⟩

theorem columns_written : columns (joined (COLUMNS.map String.toList)) = some written := by decide +kernel

theorem timeField_of_inverse {f : List Text} {i : Nat} {t : DateTime} (hf : f[i]? = some (time.toRfc3339 t))
    (h : time.Inverse t) : timeField time f (some i) = some t := by
  rw [timeField, Option.bind_some, hf, Option.filter_some_pos (by simpa using h.ne), Option.bind_some, h.parse]

theorem Dumpable.queuedField (h : Dumpable time r) :
    timeField time (showInt r.fileId.toInt :: r.fileName :: laterFields time r) (some 10) = r.queuedAt := by
  have hfield : (showInt r.fileId.toInt :: r.fileName :: laterFields time r)[10]? =
      some ((r.queuedAt.map time.toRfc3339).getD []) := rfl
  cases hq : r.queuedAt with
  | none =>
    rw [hq] at hfield
    rw [timeField, Option.bind_some, hfield]
    rfl
  | some t =>
    rw [hq] at hfield
    exact timeField_of_inverse hfield (h.queued t hq)

theorem existsField_flag (time : Rfc3339) (r : FileRecord) :
    existsField (showInt r.fileId.toInt :: r.fileName :: laterFields time r) (some 7) = r.stillExists := by
  have hfield : (showInt r.fileId.toInt :: r.fileName :: laterFields time r)[7]? =
      some (if r.stillExists then ['t'] else ['f']) := rfl
  rw [existsField, Option.bind_some, hfield, Option.map_some, Option.getD_some]
  cases r.stillExists <;> decide

/-- **A record's line reads back as its row.** -/
theorem Dumpable.parseRow (h : Dumpable time r) (n : Nat) :
    parseRow time written n (joined (csvFields time r)) = .ok r.snapshotRow := by
  have hsize : ((laterFields time r)[0]?).bind parseU64 = some r.fileSize := parseU64_digits r.fileSize
  have hcreated : timeField time (showInt r.fileId.toInt :: r.fileName :: laterFields time r) (some 3) =
      some r.createdAt := timeField_of_inverse rfl h.created
  unfold Reconcile.parseRow
  rw [h.splitCsvLine]
  simp only [written, List.getElem?_cons_zero, List.getElem?_cons_succ, Option.bind_some, parseI64_showInt,
    h.queuedField, existsField_flag, hcreated, hsize]
  rfl

/-! ## Lines -/

theorem newline_mem_doubled {c : Char} (h : '\n' ∈ doubled c) : '\n' = c := by
  unfold doubled at h
  split at h
  · exact absurd h (by decide)
  · exact List.mem_singleton.1 h

/-- A record's line, unless its name breaks it. -/
theorem Dumpable.line (h : Dumpable time r) (hname : '\n' ∉ r.fileName) :
    '\n' ∉ joined (csvFields time r) ∧ stripCr (joined (csvFields time r)) = joined (csvFields time r) := by
  refine ⟨fun hmem => ?_, ?_⟩
  · rw [csvFields_eq] at hmem
    rcases mem_joined hmem with hc | ⟨t, ht, hc⟩
    · cases hc
    rcases List.mem_cons.1 ht with rfl | ht
    · exact (plain_showInt _ _ hc).2.2.1 rfl
    rcases List.mem_cons.1 ht with rfl | ht
    · unfold csvEscape at hc
      split at hc
      · simp only [List.mem_cons, List.mem_append, List.mem_flatMap, List.not_mem_nil, or_false] at hc
        rcases hc with hc | ⟨c, hcn, hc⟩ | hc
        · cases hc
        · rw [newline_mem_doubled hc] at hname
          exact hname hcn
        · cases hc
      · exact hname hc
    · exact (h.plain ht _ hc).2.2.1 rfl
  · -- the line ends in the time it was queued at, or in the comma before it
    have hlast : joined (csvFields time r) = joined ((csvFields time r).take 10) ++
        ',' :: (r.queuedAt.map time.toRfc3339).getD [] := @joined_concat _ ((csvFields time r).take 10) (List.cons_ne_nil _ _)
    rw [hlast]
    refine Strings.stripCr_append_cons (fun hmem => ?_)
    rcases List.mem_cons.1 hmem with hc | hc
    · cases hc
    · exact (h.plain_queued _ hc).2.2.2 rfl

theorem stripCr_quoted (a s : Text) : ∃ s' : Text,
    stripCr (a ++ '"' :: s.flatMap doubled) = a ++ '"' :: s'.flatMap doubled := by
  rcases List.eq_nil_or_concat s with rfl | ⟨s, c, rfl⟩
  · exact ⟨[], @Strings.stripCr_append_cons a [] '"' (by decide)⟩
  rw [List.concat_eq_append, List.flatMap_append, List.flatMap_singleton]
  by_cases hc : c = '\r'
  · refine ⟨s, ?_⟩
    have hcr : a ++ '"' :: (s.flatMap doubled ++ doubled c) = (a ++ '"' :: s.flatMap doubled) ++ ['\r'] := by
      rw [hc, List.append_assoc]
      rfl
    rw [hcr, stripCr, List.getLast?_append, List.getLast?_singleton, Option.some_or, if_pos rfl, List.dropLast_concat]
  · refine ⟨s ++ [c], ?_⟩
    obtain ⟨b, hb⟩ : ∃ b, doubled c = b ++ [c] := by
      unfold doubled
      split
      · rename_i h
        exact ⟨['"'], by rw [h]; rfl⟩
      · exact ⟨[], rfl⟩
    have hlast : a ++ '"' :: (s.flatMap doubled ++ doubled c) = (a ++ '"' :: (s.flatMap doubled ++ b)) ++ [c] := by
      rw [hb]
      simp
    rw [List.flatMap_append, List.flatMap_singleton, hlast]
    exact Strings.stripCr_append_cons (by simpa using Ne.symm hc)

/-- The first line of a record whose name has a line feed: it ends there, inside the quotes. -/
def cutLine (r : FileRecord) (name : Text) : Text := showInt r.fileId.toInt ++ ',' :: '"' :: name.flatMap doubled

theorem cut_of_newline (time : Rfc3339) (hname : '\n' ∈ r.fileName) (rest : Text) : ∃ name rest',
    lines (joined (csvFields time r) ++ '\n' :: rest) = cutLine r name :: lines rest' := by
  obtain ⟨n₁, n₂, hsplit, hfirst⟩ := List.eq_append_cons_of_mem hname
  have hesc : csvEscape r.fileName = '"' :: (n₁.flatMap doubled ++ '\n' :: (n₂.flatMap doubled ++ ['"'])) := by
    unfold csvEscape
    rw [if_pos (by simp [hname]), hsplit, List.flatMap_append, List.flatMap_cons, List.append_assoc, List.append_assoc]
    rfl
  have hline : joined (csvFields time r) ++ '\n' :: rest = (showInt r.fileId.toInt ++ ',' :: '"' :: n₁.flatMap doubled) ++
      '\n' :: (n₂.flatMap doubled ++ '"' :: ',' :: (joined (laterFields time r) ++ '\n' :: rest)) := by
    show (showInt r.fileId.toInt ++ ',' :: (csvEscape r.fileName ++ ',' :: joined (laterFields time r))) ++ '\n' :: rest = _
    rw [hesc]
    simp
  have hno : '\n' ∉ showInt r.fileId.toInt ++ ',' :: '"' :: n₁.flatMap doubled := by
    intro hmem
    simp only [List.mem_append, List.mem_cons, List.mem_flatMap] at hmem
    rcases hmem with h | h | h | ⟨c, hc, h⟩
    · exact (plain_showInt _ _ h).2.2.1 rfl
    · cases h
    · cases h
    · exact hfirst (by rw [newline_mem_doubled h]; exact hc)
  obtain ⟨name, hcut⟩ := stripCr_quoted (showInt r.fileId.toInt ++ [',']) n₁
  rw [List.append_assoc, List.append_assoc] at hcut
  have hlines := Strings.lines_line hno
    (n₂.flatMap doubled ++ '"' :: ',' :: (joined (laterFields time r) ++ '\n' :: rest))
  rw [← hline] at hlines
  exact ⟨name, _, hlines.trans (congrArg (· :: _) hcut)⟩

/-- **A cut line has two fields**, and no size. -/
theorem parseRow_cutLine (time : Rfc3339) (name : Text) (n : Nat) :
    parseRow time written n (cutLine r name) = .error (badRow n) := by
  have hsplit : Reconcile.splitCsvLine (cutLine r name) = [showInt r.fileId.toInt, name] := by
    unfold Reconcile.splitCsvLine cutLine
    have hid := (plain_showInt r.fileId.toInt).reads
    rw [hid _ _ (.inr ⟨_, rfl⟩), splitCsvLine.go]
    have hopen : splitCsvLine.go ('"' :: name.flatMap doubled) false [] ([] ++ [showInt r.fileId.toInt]) =
        splitCsvLine.go (name.flatMap doubled) true [] [showInt r.fileId.toInt] := by
      rw [splitCsvLine.go]
      · rfl
      · exact fun _ h _ => Bool.false_ne_true h
    have hbody := go_doubled name [] [showInt r.fileId.toInt] []
    rw [List.append_nil] at hbody
    rw [hopen, hbody]
    rfl
  unfold Reconcile.parseRow
  rw [hsplit]
  dsimp only
  split
  · rename_i hsize
    cases hsize
  · rfl

theorem parseRows_ok : ∀ (rs : List FileRecord) (n : Nat), (∀ r ∈ rs, Dumpable time r) →
    parseRows time written n (rs.map (fun r => joined (csvFields time r))) = .ok (rs.map FileRecord.snapshotRow)
  | [], _, _      => rfl
  | r :: rs, n, h => by
    rw [List.map_cons, parseRows, (h r List.mem_cons_self).parseRow,
      parseRows_ok rs (n + 1) (fun r' h' => h r' (List.mem_cons_of_mem _ h'))]
    rfl

theorem parseRows_error {cols : Columns} {line : Text} (hbad : ∀ n, parseRow time cols n line = .error (badRow n)) :
    ∀ {ls : List Text} (n : Nat), line ∈ ls → ∃ e, parseRows time cols n ls = .error e
  | [], _, h      => by cases h
  | l :: ls, n, h => by
    unfold parseRows
    rcases List.mem_cons.1 h with rfl | h
    · rw [hbad]
      exact ⟨_, rfl⟩
    · obtain ⟨e, he⟩ := parseRows_error hbad (n + 1) h
      rw [he]
      split
      · exact ⟨_, rfl⟩
      · exact ⟨_, rfl⟩

/-- A record with a line feed in its name leaves a cut line. -/
theorem exists_cutLine : ∀ {rs : List FileRecord}, (∀ r ∈ rs, Dumpable time r) → (∃ r ∈ rs, '\n' ∈ r.fileName) →
    ∃ r name, cutLine r name ∈ lines ((rs.map (fun r => joined (csvFields time r))).flatMap (· ++ ['\n']))
  | [], _, ⟨_, h, _⟩    => by cases h
  | r :: rs, h, hbroken => by
    rw [List.map_cons, List.flatMap_cons, List.append_assoc, List.singleton_append]
    by_cases hname : '\n' ∈ r.fileName
    · obtain ⟨name, rest', hcut⟩ := cut_of_newline time hname
        ((rs.map (fun r => joined (csvFields time r))).flatMap (· ++ ['\n']))
      exact ⟨r, name, by rw [hcut]; exact List.mem_cons_self⟩
    · obtain ⟨r', hr', hn'⟩ := hbroken
      rcases List.mem_cons.1 hr' with rfl | hr'
      · exact absurd hn' hname
      obtain ⟨r'', name, hmem⟩ := exists_cutLine (fun r h' => h r (List.mem_cons_of_mem _ h')) ⟨r', hr', hn'⟩
      rw [Strings.lines_line ((h r List.mem_cons_self).line hname).1]
      exact ⟨r'', name, List.mem_cons_of_mem _ hmem⟩

end Reconcile

/-- **A snapshot reads back exactly when no name in it has a line feed.** -/
theorem snapshot_reads_back_iff (time : Rfc3339) (l : Ledger) (h : ∀ r ∈ l.rows, Reconcile.Dumpable time r) :
    Reconcile.parseSnapshot time (l.dumpCsv time) = .ok (l.rows.map FileRecord.snapshotRow) ↔
      ∀ r ∈ l.rows, '\n' ∉ r.fileName := by
  have hheader : '\n' ∉ joined (COLUMNS.map String.toList) ∧
      stripCr (joined (COLUMNS.map String.toList)) = joined (COLUMNS.map String.toList) ∧
      isBlank (joined (COLUMNS.map String.toList)) = false := by decide +kernel
  have hlines : lines (l.dumpCsv time) = joined (COLUMNS.map String.toList) ::
      lines ((l.rows.map (fun r => joined (csvFields time r))).flatMap (· ++ ['\n'])) := by
    unfold Ledger.dumpCsv
    rw [List.flatMap_cons, List.append_assoc, List.singleton_append, Strings.lines_line hheader.1, hheader.2.1]
    rfl
  have hparse : Reconcile.parseSnapshot time (l.dumpCsv time) = Reconcile.parseRows time Reconcile.written 0
      ((lines ((l.rows.map (fun r => joined (csvFields time r))).flatMap (· ++ ['\n']))).filter (fun l => !isBlank l)) := by
    unfold Reconcile.parseSnapshot
    rw [hlines, List.filter_cons_of_pos (by rw [hheader.2.2]; rfl)]
    simp only [Reconcile.columns_written]
  rw [hparse]
  constructor
  · intro hok r hr hname
    obtain ⟨r', name, hmem⟩ := Reconcile.exists_cutLine h ⟨r, hr, hname⟩
    have hblank : (!isBlank (Reconcile.cutLine r' name)) = true := congrArg not (Strings.not_isBlank_showInt _ _)
    have hkept := List.mem_filter (p := fun l => !isBlank l) |>.2 ⟨hmem, hblank⟩
    obtain ⟨e, he⟩ := Reconcile.parseRows_error (Reconcile.parseRow_cutLine time name) 0 hkept
    rw [he] at hok
    cases hok
  · intro hname
    have hrows := @Strings.lines_flatMap [] (l.rows.map (fun r => joined (csvFields time r))) (fun s hs => by
      obtain ⟨r, hr, rfl⟩ := List.mem_map.1 hs
      exact (h r hr).line (hname r hr))
    rw [List.append_nil] at hrows
    have hkept : (l.rows.map (fun r => joined (csvFields time r))).filter (fun l => !isBlank l) =
        l.rows.map (fun r => joined (csvFields time r)) := by
      refine List.filter_eq_self.2 (fun s hs => ?_)
      obtain ⟨r, hr, rfl⟩ := List.mem_map.1 hs
      rw [Reconcile.csvFields_eq]
      exact congrArg not (Strings.not_isBlank_showInt _ _)
    rw [hrows, show lines [] = [] from rfl, List.append_nil, hkept]
    exact Reconcile.parseRows_ok l.rows 0 h

/-- The epoch, as `chrono` writes it. -/
def Rfc3339.epoch : Rfc3339 where
  toRfc3339 _ := "1970-01-01T00:00:00+00:00".toList
  parseFromRfc3339 s := if s = "1970-01-01T00:00:00+00:00".toList then some 0 else none

/-- A ledger of one file, registered and queued at the epoch. -/
def Ledger.sample (name : Text) : Ledger :=
  Ledger.empty.insert ⟨0, name, 40, 0, 0, 0, 0, true, 64, none, some 0⟩ empty_room rfl

theorem Ledger.dumpable_sample (name : Text) : ∀ r ∈ (sample name).rows, Reconcile.Dumpable .epoch r := by
  intro r hr
  rw [List.mem_singleton.1 hr]
  have hchars : (Rfc3339.epoch.toRfc3339 0).all (fun c => decide (c ≠ ',' ∧ c ≠ '"' ∧ c ≠ '\n' ∧ c ≠ '\r')) = true := by
    decide +kernel
  have hepoch : Rfc3339.epoch.Inverse 0 :=
    ⟨by decide +kernel, by decide +kernel, fun c hc => of_decide_eq_true (List.all_eq_true.1 hchars c hc)⟩
  refine ⟨hepoch, fun t ht => ?_, fun s hs => by cases hs⟩
  cases ht
  exact hepoch

/-- A name with a comma, a quote and a carriage return. -/
theorem snapshot_reads_back_quoted : Reconcile.parseSnapshot .epoch ((Ledger.sample "/a,\"b\r".toList).dumpCsv .epoch) =
    .ok [⟨1, "/a,\"b\r".toList, 40, some 0, true, some 0⟩] :=
  (snapshot_reads_back_iff .epoch (Ledger.sample "/a,\"b\r".toList) (Ledger.dumpable_sample _)).2 (by decide +kernel)

/-- **A line feed in a name** makes the whole snapshot unreadable. -/
theorem snapshot_not_read_back : Reconcile.parseSnapshot .epoch ((Ledger.sample "/a\nb".toList).dumpCsv .epoch) =
    .error (.badConfig "ledger snapshot row 2 is malformed") := by decide +kernel

end Parachuter
