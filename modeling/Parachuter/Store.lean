import Parachuter.Lib.Table
import Parachuter.Lib.Wal
import Parachuter.Snapshot
/-!
# Store — the ledger as its database has it (`ledger.rs`)

The rest of the development takes the ledger for a list of records.  Here it is the table `files`, with the statements of
`ledger.rs` on it: sizes and counters are stored as signed 64-bit integers, times as texts, and a table written before
`queued_at` existed gets the column when it is opened.  The database is a write-ahead log (`journal_mode = WAL`,
`synchronous = NORMAL`), so a loss of power may take the last statements.

`Stored time db l` says that the database holds the ledger `l`; every call keeps it (`LedgerDb.call_stored`) and answers
as the ledger does.  Over any run of calls, checkpoints, restarts and losses of power the database answers as the ledger
does after the calls it remembers: all of them, but for the last ones before each loss (`ledger_remembers`).
-/
namespace Parachuter

open Sql (Cell Column Row Table Fault)
open Sql.Table (Place Cond place cellAt)

/-- The time reads back. -/
def Rfc3339.Reads (time : Rfc3339) (t : DateTime) : Prop := time.parseFromRfc3339 (time.toRfc3339 t) = some t

/-! ## The statements -/

/-- `SCHEMA`: the columns of `files` besides its key. -/
def FILES : List Column :=
  [⟨"file_name", true, true, .null⟩, ⟨"file_size", true, false, .null⟩, ⟨"created_at", true, false, .null⟩,
    ⟨"images_per_dark", true, false, .integer 0⟩, ⟨"images_per_flat", true, false, .integer 0⟩,
    ⟨"images_per_bias", true, false, .integer 0⟩, ⟨"still_exists", true, false, .integer 1⟩,
    ⟨"chunk_size", true, false, .integer 16192⟩, ⟨"sha256", false, false, .null⟩, ⟨"queued_at", false, false, .null⟩]

/-- `u32 as i64`. -/
def u32Cell (n : UInt32) : Cell := .integer n.toUInt64.toInt64

def optText : Option Text → Cell
  | none   => .null
  | some t => .text t

namespace LedgerDb

/-! `row.get::<_, T>(i)?` for the types the code asks for. -/

def getI64 (row : List Cell) (i : Nat) : Except Fault Int64 :=
  match row[i]? with
  | some (.integer n) => .ok n
  | _                 => .error .wrongType

def getString (row : List Cell) (i : Nat) : Except Fault Text :=
  match row[i]? with
  | some (.text t) => .ok t
  | _              => .error .wrongType

def getOptString (row : List Cell) (i : Nat) : Except Fault (Option Text) :=
  match row[i]? with
  | some .null     => .ok none
  | some (.text t) => .ok (some t)
  | _              => .error .wrongType

/-- `row_to_record`.  `now` stands for a creation time that does not parse, nothing for a queueing time. -/
def rowToRecord (time : Rfc3339) (now : DateTime) (row : List Cell) : Except Fault FileRecord := do
  let createdStr ← getString row 3
  let created := (time.parseFromRfc3339 createdStr).getD now
  let fileId ← getI64 row 0
  let fileName ← getString row 1
  let fileSize ← getI64 row 2
  let imagesPerDark ← getI64 row 4
  let imagesPerFlat ← getI64 row 5
  let imagesPerBias ← getI64 row 6
  let stillExists ← getI64 row 7
  let chunkSize ← getI64 row 8
  let sha256 ← getOptString row 9
  let queuedAt ← getOptString row 10
  .ok
    { fileId, fileName
      fileSize := fileSize.toUInt64
      createdAt := created
      imagesPerDark := imagesPerDark.toUInt64.toUInt32
      imagesPerFlat := imagesPerFlat.toUInt64.toUInt32
      imagesPerBias := imagesPerBias.toUInt64.toUInt32
      stillExists := stillExists ≠ 0
      chunkSize := chunkSize.toUInt64.toUInt32
      sha256
      queuedAt := queuedAt.bind time.parseFromRfc3339 }

/-- `query_row` and `optional`: the first row, if there is one. -/
def queryRow {α : Type} (t : Table) (names : List String) (cond : Cond) (f : List Cell → Except Fault α) :
    Except Fault (Option α) := do
  match ← t.select names (some cond) with
  | []       => .ok none
  | row :: _ => do
    let a ← f row
    .ok (some a)

/-- The columns that the `INSERT` of `upsert_file` names, and its values. -/
def INSERTED : List String := ["file_name", "file_size", "created_at", "images_per_dark", "images_per_flat",
  "images_per_bias", "still_exists", "chunk_size"]

def insertValues (time : Rfc3339) (name : Text) (size : UInt64) (created : DateTime) (ipd ipf ipb chunkSize : UInt32) :
    List Cell :=
  [.text name, .integer size.toInt64, .text (time.toRfc3339 created), u32Cell ipd, u32Cell ipf, u32Cell ipb, .integer 1,
    u32Cell chunkSize]

/-- What `upsert_file` does in its transaction. -/
def upsertFile (time : Rfc3339) (name : Text) (size : UInt64) (created : DateTime) (ipd ipf ipb chunkSize : UInt32)
    (t : Table) : Except Fault (FileId × Table) := do
  match ← queryRow t ["file_id"] ⟨"file_name", .text name⟩ (getI64 · 0) with
  | some id => .ok (id, t)
  | none    => t.insert INSERTED (insertValues time name size created ipd ipf ipb chunkSize)

def get (time : Rfc3339) (now : DateTime) (t : Table) (fileId : FileId) : Except Fault (Option FileRecord) :=
  queryRow t COLUMNS ⟨"file_id", .integer fileId⟩ (rowToRecord time now)

def getByName (time : Rfc3339) (now : DateTime) (t : Table) (name : Text) : Except Fault (Option FileRecord) :=
  queryRow t COLUMNS ⟨"file_name", .text name⟩ (rowToRecord time now)

def markGone (t : Table) (name : Text) : Except Fault Table :=
  t.update "still_exists" (.integer 0) ⟨"file_name", .text name⟩

def markQueued (time : Rfc3339) (t : Table) (fileId : FileId) (when : DateTime) : Except Fault Table :=
  t.update "queued_at" (.text (time.toRfc3339 when)) ⟨"file_id", .integer fileId⟩

def all (time : Rfc3339) (now : DateTime) (t : Table) : Except Fault (List FileRecord) := do
  (← t.select COLUMNS none).mapM (rowToRecord time now)

/-- `dump_csv`, as far as what it writes. -/
def dumpCsv (time : Rfc3339) (now : DateTime) (t : Table) : Except Fault Text := do
  let rs ← all time now t
  .ok ((joined (COLUMNS.map String.toList) :: rs.map (fun r => joined (csvFields time r))).flatMap (· ++ ['\n']))

/-! ## Opening -/

/-- A database: what has been committed, without the table at first. -/
abbrev Database := Wal (Option Table)

/-- `execute_batch(SCHEMA)`. -/
def createFiles (w : Database) : Database :=
  match w.current with
  | none   => w.commit (some (Table.create "file_id" FILES))
  | some _ => w

/-- The columns of a table, as `PRAGMA table_info` lists them. -/
def tableInfo (t : Table) : List String := t.key :: t.columns.map (·.name)

def migrate (w : Database) : Except Fault Database :=
  match w.current with
  | none   => .error .noSuchTable
  | some t =>
    if "queued_at" ∈ tableInfo t then .ok w
    else do
      let t' ← t.addColumn "queued_at"
      .ok (w.commit (some t'))

/-- `Ledger::open`. -/
def openLedger (w : Database) : Except Fault Database := migrate (createFiles w)

end LedgerDb

/-! ## Calls -/

inductive LedgerCall
  | upsertFile (name : Text) (size : UInt64) (created : DateTime) (ipd ipf ipb chunkSize : UInt32)
  | get (fileId : FileId)
  | getByName (name : Text)
  | markGone (name : Text)
  | markQueued (fileId : FileId) (when : DateTime)
  | all
  | dumpCsv

inductive LedgerAnswer
  | id (fileId : FileId)
  | record (r : Option FileRecord)
  | records (rs : List FileRecord)
  | text (t : Text)
  | done
  | failed (e : Error)
  deriving DecidableEq

/-- The times a call brings. -/
def LedgerCall.times : LedgerCall → List DateTime
  | .upsertFile _ _ created _ _ _ _ => [created]
  | .markQueued _ when              => [when]
  | _                               => []

/-- What a call does to the ledger, and its answer. -/
def Ledger.call (time : Rfc3339) (l : Ledger) : LedgerCall → LedgerAnswer × Ledger
  | .upsertFile name size created ipd ipf ipb chunkSize =>
    match l.upsertFile name size created ipd ipf ipb chunkSize with
    | .ok (id, l') => (.id id, l')
    | .error e     => (.failed e, l)
  | .get fileId             => (.record (l.get fileId), l)
  | .getByName name         => (.record (l.getByName name), l)
  | .markGone name          => (.done, l.markGone name)
  | .markQueued fileId when => (.done, l.markQueued fileId when)
  | .all                    => (.records l.all, l)
  | .dumpCsv                => (.text (l.dumpCsv time), l)

/-- The ledger after some calls. -/
def Ledger.after (time : Rfc3339) (l : Ledger) (cs : List LedgerCall) : Ledger := cs.foldl (fun l c => (l.call time c).2) l

namespace LedgerDb

/-- The answer of a statement that reads. -/
def answer {α : Type} (f : α → LedgerAnswer) : Except Fault α → LedgerAnswer
  | .ok a    => f a
  | .error _ => .failed .sqlite

/-- A statement that writes: a transaction of its own. -/
def execute (w : Database) : Except Fault Table → LedgerAnswer × Database
  | .ok t    => (.done, w.commit (some t))
  | .error _ => (.failed .sqlite, w)

/-- The answer of a transaction that gives an id. -/
def committed (w : Database) : Except Fault FileId × Table → LedgerAnswer × Database
  | (.ok id, t)   => (.id id, w.commit (some t))
  | (.error _, _) => (.failed .sqlite, w)

/-- One call, when the clock reads `now`. -/
def call (time : Rfc3339) (now : DateTime) (w : Database) (c : LedgerCall) : LedgerAnswer × Database :=
  match w.current with
  | none   => (.failed .sqlite, w)
  | some t =>
    match c with
    | .upsertFile name size created ipd ipf ipb chunkSize =>
      committed w (Table.transaction (upsertFile time name size created ipd ipf ipb chunkSize) t)
    | .get fileId             => (answer .record (get time now t fileId), w)
    | .getByName name         => (answer .record (getByName time now t name), w)
    | .markGone name          => execute w (markGone t name)
    | .markQueued fileId when => execute w (markQueued time t fileId when)
    | .all                    => (answer .records (all time now t), w)
    | .dumpCsv                => (answer .text (dumpCsv time now t), w)

/-- What happens to a database: a call, when the clock reads `now`; a checkpoint; and a restart of the sender, by a loss
of power that takes the last `lost` commits or, when there are none, by its own end. -/
inductive Event
  | call (c : LedgerCall) (now : DateTime)
  | checkpoint
  | restart (lost : Nat)

def step (time : Rfc3339) (w : Database) : Event → Except Fault (List LedgerAnswer × Database)
  | .call c now   => .ok ([(call time now w c).1], (call time now w c).2)
  | .checkpoint   => .ok ([], w.checkpoint)
  | .restart lost => do
    let w' ← openLedger (w.cut lost)
    .ok ([], w')

def Event.times : Event → List DateTime
  | .call c _ => c.times
  | _         => []

/-- The answers of a run. -/
def run (time : Rfc3339) (w : Database) : List Event → Except Fault (List LedgerAnswer)
  | []      => .ok []
  | e :: es => do
    let (as, w') ← step time w e
    let bs ← run time w' es
    .ok (as ++ bs)

/-- The sender starts on a database as it finds it. -/
def boot (time : Rfc3339) (db : Option Table) (es : List Event) : Except Fault (List LedgerAnswer) := do
  let w ← openLedger ⟨db, []⟩
  run time w es

end LedgerDb

/-! ## What a table holds -/

def FileRecord.cells (time : Rfc3339) (r : FileRecord) : List Cell :=
  [.text r.fileName, .integer r.fileSize.toInt64, .text (time.toRfc3339 r.createdAt), u32Cell r.imagesPerDark,
    u32Cell r.imagesPerFlat, u32Cell r.imagesPerBias, .integer (if r.stillExists then 1 else 0), u32Cell r.chunkSize,
    optText r.sha256, optText (r.queuedAt.map time.toRfc3339)]

/-- A record as a row of `files`. -/
def FileRecord.row (time : Rfc3339) (r : FileRecord) : Row := ⟨r.fileId, r.cells time⟩

/-- A record as a row of a table without `queued_at`. -/
def FileRecord.oldRow (time : Rfc3339) (r : FileRecord) : Row := ⟨r.fileId, (r.cells time).dropLast⟩

/-- A record's times read back. -/
def FileRecord.Timed (time : Rfc3339) (r : FileRecord) : Prop := time.Reads r.createdAt ∧ ∀ t ∈ r.queuedAt, time.Reads t

/-- The table has the ledger's records, each as `row` has it. -/
structure Shows (columns : List Column) (row : FileRecord → Row) (t : Table) (l : Ledger) : Prop where
  key     : t.key = "file_id"
  columns : t.columns = columns
  rows    : t.rows = l.rows.map row
  seq     : t.seq = l.seq

/-- A table of today's schema with the ledger in it. -/
structure Today (time : Rfc3339) (t : Table) (l : Ledger) : Prop where
  shows : Shows FILES (·.row time) t l
  timed : ∀ r ∈ l.rows, r.Timed time

/-- What a database holds: nothing yet, a table from before `queued_at`, or a table of today. -/
inductive Stored (time : Rfc3339) : Option Table → Ledger → Prop
  | absent : Stored time none .empty
  | old {t : Table} {l : Ledger} (h : Shows FILES.dropLast (·.oldRow time) t l) (ht : ∀ r ∈ l.rows, r.Timed time)
      (hq : ∀ r ∈ l.rows, r.queuedAt = none) : Stored time (some t) l
  | today {t : Table} {l : Ledger} (h : Today time t l) : Stored time (some t) l

/-- **What a database owes its caller.**  It has done the calls `cs`, of which no loss of power takes the first, `safe`;
every answer is the ledger's own after the calls it has done, and of these a restart forgets some of the last, or none
when no commit is lost. -/
inductive Recalls (time : Rfc3339) (l : Ledger) :
    List LedgerCall → List LedgerCall → List LedgerDb.Event → List LedgerAnswer → Prop
  | nil (safe cs : List LedgerCall) : Recalls time l safe cs [] []
  | call {safe cs : List LedgerCall} {c : LedgerCall} {now : DateTime} {es : List LedgerDb.Event} {as : List LedgerAnswer}
      (h : Recalls time l safe (cs ++ [c]) es as) :
      Recalls time l safe cs (.call c now :: es) (((l.after time cs).call time c).1 :: as)
  | checkpoint {safe cs : List LedgerCall} {es : List LedgerDb.Event} {as : List LedgerAnswer}
      (h : Recalls time l cs cs es as) : Recalls time l safe cs (.checkpoint :: es) as
  | restart {safe cs kept : List LedgerCall} {lost : Nat} {es : List LedgerDb.Event} {as : List LedgerAnswer}
      (hsafe : safe <+: kept) (hkept : kept <+: cs) (hall : lost = 0 → kept = cs) (h : Recalls time l safe kept es as) :
      Recalls time l safe cs (.restart lost :: es) as

namespace LedgerDb

variable {time : Rfc3339} {t : Table} {l : Ledger}

/-! ### Reading a row -/

/-- Where `files` has the columns that every `SELECT` asks for. -/
def PLACES : List Place := .key :: (List.range 10).map .column

theorem mapM_place_columns : COLUMNS.mapM (place "file_id" FILES) = .ok PLACES := by decide +kernel

theorem getOptString_optText {row : List Cell} {i : Nat} {o : Option Text} (h : row[i]? = some (optText o)) :
    getOptString row i = .ok o := by
  rw [getOptString, h]
  cases o <;> rfl

/-- **A row reads back as its record.** -/
theorem rowToRecord_row {r : FileRecord} (h : r.Timed time) (now : DateTime) :
    rowToRecord time now (PLACES.map (cellAt (r.row time))) = .ok r := by
  obtain ⟨hc, hq⟩ := h
  have hrow : PLACES.map (cellAt (r.row time)) = .integer r.fileId :: r.cells time := rfl
  have hqueued : (r.queuedAt.map time.toRfc3339).bind time.parseFromRfc3339 = r.queuedAt := by
    cases h : r.queuedAt with
    | none => rfl
    | some t => exact hq t h
  have hsha : getOptString (.integer r.fileId :: r.cells time) 9 = .ok r.sha256 := getOptString_optText rfl
  have hopt : getOptString (.integer r.fileId :: r.cells time) 10 = .ok (r.queuedAt.map time.toRfc3339) :=
    getOptString_optText rfl
  have hexists : decide ((if r.stillExists then 1 else 0 : Int64) ≠ 0) = r.stillExists := by
    cases r.stillExists <;> rfl
  have hcreated : (time.parseFromRfc3339 (time.toRfc3339 r.createdAt)).getD now = r.createdAt := by
    rw [show time.parseFromRfc3339 (time.toRfc3339 r.createdAt) = some r.createdAt from hc, Option.getD_some]
  rw [hrow]
  simp only [rowToRecord, hsha, hopt, bind, Except.bind]
  simp only [getString, getI64, FileRecord.cells, u32Cell, List.getElem?_cons_zero, List.getElem?_cons_succ, hcreated,
    hqueued, hexists, UInt64.toUInt64_toInt64, UInt32.toUInt32_toUInt64]

/-- A row under a condition on the name, and under one on the id. -/
theorem test_name (name : Text) (r : FileRecord) :
    Cond.test ⟨"file_name", .text name⟩ (.column 0) (r.row time) = decide (r.fileName = name) := by
  simp [Cond.test, cellAt, Row.at, FileRecord.row, FileRecord.cells]

theorem test_id (id : FileId) (r : FileRecord) :
    Cond.test ⟨"file_id", .integer id⟩ .key (r.row time) = decide (r.fileId = id) := by
  simp [Cond.test, cellAt, FileRecord.row]

/-! ### What the declarations ask -/

theorem files_notNull : ∀ p ∈ FILES.zipIdx, p.1.notNull = true → p.2 < 8 := by decide +kernel

theorem files_unique : ∀ p ∈ FILES.zipIdx, p.1.unique = true → p.2 = 0 := by decide +kernel

theorem at_ne_null (time : Rfc3339) {i : Nat} (h : i < 8) (r : FileRecord) : (r.row time).at i ≠ .null := by
  match i, h with
  | 0, _ | 1, _ | 2, _ | 3, _ | 4, _ | 5, _ | 6, _ | 7, _ => simp [Row.at, FileRecord.row, FileRecord.cells, u32Cell]

/-- The names are unique, and what must be there is. -/
theorem allowed_rows (time : Rfc3339) (l : Ledger) : Sql.Allowed FILES (l.rows.map (·.row time)) := by
  intro p hp
  refine ⟨fun hn hnull => ?_, fun hu => ?_⟩
  · rw [List.map_map] at hnull
    obtain ⟨r, -, he⟩ := List.mem_map.1 hnull
    exact at_ne_null time (files_notNull p hp hn) r he
  · rw [files_unique p hp hu, List.map_map]
    have hnames : (l.rows.map ((fun r : Row => r.at 0) ∘ (·.row time))).Nodup :=
      List.pairwise_map.2 (l.unique.imp (fun hne he => hne (Cell.text.inj he)))
    exact hnames.filter _

/-! ### The statements on a table of today -/

theorem mapM_rows {f : List Cell → Except Fault FileRecord} {g : FileRecord → List Cell} :
    ∀ {rs : List FileRecord}, (∀ r ∈ rs, f (g r) = .ok r) → (rs.map g).mapM f = .ok rs
  | [], _      => rfl
  | r :: rs, h => by
    rw [List.map_cons, List.mapM_cons, h r List.mem_cons_self, mapM_rows (fun s hs => h s (List.mem_cons_of_mem _ hs))]
    rfl

theorem mapM_place_inserted : INSERTED.mapM (place "file_id" FILES) = .ok ((List.range 8).map .column) := by
  decide +kernel

/-- What is not named is left without a digest and not queued. -/
theorem fresh_cells (name : Text) (size : UInt64) (created : DateTime) (ipd ipf ipb chunkSize : UInt32) :
    Sql.Table.fresh FILES INSERTED (insertValues time name size created ipd ipf ipb chunkSize) =
    FileRecord.cells time ⟨0, name, size, created, ipd, ipf, ipb, true, chunkSize, none, none⟩ := rfl

variable (h : Shows FILES (·.row time) t l)
include h

theorem filter_shows {cond : Cond} {p : Place} {test : FileRecord → Bool}
    (htest : ∀ r, cond.test p (FileRecord.row time r) = test r) :
    t.rows.filter (cond.test p) = (l.rows.filter test).map (·.row time) := by
  rw [h.rows, List.filter_map]
  exact congrArg _ (List.filter_congr (fun r _ => htest r))

/-- **A query by one column finds what the ledger finds.** -/
theorem queryRow_shows {α : Type} {names : List String} {ps : List Place} {cond : Cond} {p : Place}
    {test : FileRecord → Bool} {f : List Cell → Except Fault α} {g : FileRecord → α}
    (hps : names.mapM (place "file_id" FILES) = .ok ps) (hp : place "file_id" FILES cond.name = .ok p)
    (htest : ∀ r, cond.test p (FileRecord.row time r) = test r)
    (hf : ∀ r ∈ l.rows, f (ps.map (cellAt (r.row time))) = .ok (g r)) :
    queryRow t names cond f = .ok ((l.rows.find? test).map g) := by
  rw [← h.key, ← h.columns] at hps hp
  rw [queryRow, Sql.Table.select_where hps hp, filter_shows h htest, List.map_map, ← List.head?_filter]
  cases hrows : l.rows.filter test with
  | nil => rfl
  | cons r rest =>
    have hr : r ∈ l.rows := List.mem_of_mem_filter (hrows ▸ List.mem_cons_self)
    simp only [List.map_cons, Function.comp_apply, bind, Except.bind, hf r hr, List.head?_cons, Option.map_some]

theorem get_shows (ht : ∀ r ∈ l.rows, r.Timed time) (now : DateTime) (id : FileId) :
    get time now t id = .ok (l.get id) := by
  rw [get, queryRow_shows h mapM_place_columns rfl (test_id id) (fun r hr => rowToRecord_row (ht r hr) now),
    Option.map_id', Ledger.get]

theorem getByName_shows (ht : ∀ r ∈ l.rows, r.Timed time) (now : DateTime) (name : Text) :
    getByName time now t name = .ok (l.getByName name) := by
  rw [getByName, queryRow_shows h mapM_place_columns rfl (test_name name) (fun r hr => rowToRecord_row (ht r hr) now),
    Option.map_id', Ledger.getByName]

theorem all_shows (ht : ∀ r ∈ l.rows, r.Timed time) (now : DateTime) : all time now t = .ok l.all := by
  have hps := mapM_place_columns
  rw [← h.key, ← h.columns] at hps
  rw [all, Sql.Table.select_all hps, h.rows, List.map_map]
  exact mapM_rows (fun r hr => rowToRecord_row (ht r hr) now)

theorem dumpCsv_shows (ht : ∀ r ∈ l.rows, r.Timed time) (now : DateTime) :
    dumpCsv time now t = .ok (l.dumpCsv time) := by
  rw [dumpCsv, all_shows h ht now]
  rfl

/-- **An update of one column by one condition is an update of the ledger.** -/
theorem update_shows {name : String} {v : Cell} {cond : Cond} {p : Place} {i : Nat} {test : FileRecord → Bool}
    {l' : Ledger} (hp : place "file_id" FILES cond.name = .ok p)
    (hi : FILES.findIdx? (·.name = name) = some i) (htest : ∀ r, cond.test p (FileRecord.row time r) = test r)
    {f : FileRecord → FileRecord}
    (hf : ∀ r, (f r).row time = { r.row time with cells := (r.row time).cells.set i v })
    (hrows : l'.rows = l.rows.map (fun r => if test r then f r else r)) (hseq : l'.seq = l.seq) :
    ∃ t', t.update name v cond = .ok t' ∧ Shows FILES (·.row time) t' l' := by
  have hchanged : Sql.Table.changed t.rows i v (cond.test p) = l'.rows.map (·.row time) := by
    rw [Sql.Table.changed, h.rows, hrows, List.map_map, List.map_map]
    refine List.map_congr_left (fun r _ => ?_)
    simp only [Function.comp_apply, htest]
    split
    · exact (hf r).symm
    · rfl
  rw [← h.key, ← h.columns] at hp
  rw [← h.columns] at hi
  have hallowed : Sql.Allowed t.columns (Sql.Table.changed t.rows i v (cond.test p)) := by
    rw [hchanged, h.columns]
    exact allowed_rows time l'
  obtain ⟨t', hgo, hk, hc, hr, hs⟩ := Sql.Table.update_ok hp hi hallowed
  exact ⟨t', hgo, hk.trans h.key, hc.trans h.columns, hr.trans hchanged, hs.trans (h.seq.trans hseq.symm)⟩

theorem markGone_shows (name : Text) :
    ∃ t', markGone t name = .ok t' ∧ Shows FILES (·.row time) t' (l.markGone name) :=
  update_shows h rfl rfl (test_name name) (f := fun r => { r with stillExists := false }) (fun _ => rfl)
    (List.map_congr_left (fun r _ => by simp)) rfl

theorem markQueued_shows (id : FileId) (when : DateTime) :
    ∃ t', markQueued time t id when = .ok t' ∧ Shows FILES (·.row time) t' (l.markQueued id when) :=
  update_shows h rfl rfl (test_id id) (f := fun r => { r with queuedAt := some when }) (fun _ => rfl)
    (List.map_congr_left (fun r _ => by simp)) rfl

/-- **Registering a file in the table is registering it in the ledger.** -/
theorem upsertFile_shows (name : Text) (size : UInt64) (created : DateTime) (ipd ipf ipb chunkSize : UInt32) :
    (∃ id l' t', l.upsertFile name size created ipd ipf ipb chunkSize = .ok (id, l') ∧
      upsertFile time name size created ipd ipf ipb chunkSize t = .ok (id, t') ∧ Shows FILES (·.row time) t' l') ∨
    (l.upsertFile name size created ipd ipf ipb chunkSize = .error .sqlite ∧
      upsertFile time name size created ipd ipf ipb chunkSize t = .error .full) := by
  have hfound : queryRow t ["file_id"] ⟨"file_name", .text name⟩ (getI64 · 0) =
      .ok ((l.getByName name).map (·.fileId)) := by
    have hplace : ["file_id"].mapM (place "file_id" FILES) = .ok [.key] := rfl
    exact queryRow_shows h hplace rfl (test_name name) (fun r _ => rfl)
  have hps := mapM_place_inserted
  rw [← h.key, ← h.columns] at hps
  simp only [upsertFile, hfound, bind, Except.bind, Ledger.upsertFile]
  split
  · rename_i r hr
    exact .inl ⟨r.fileId, l, t, rfl, by rw [hr]; rfl, h⟩
  · rename_i hnone
    simp only [hnone, Option.map_none]
    by_cases hseq : l.seq + 1 ≤ Ledger.MAX_ROWID
    · have hgrown : t.grown (Sql.Table.fresh t.columns INSERTED (insertValues time name size created ipd ipf ipb
          chunkSize)) = (l.insert ⟨0, name, size, created, ipd, ipf, ipb, true, chunkSize, none, none⟩ hseq
          hnone).rows.map (·.row time) := by
        rw [Sql.Table.grown, h.rows, h.columns, h.seq, fresh_cells, Ledger.insert, List.map_append]
        rfl
      have hallowed : Sql.Allowed t.columns (t.grown (Sql.Table.fresh t.columns INSERTED (insertValues time name size
          created ipd ipf ipb chunkSize))) := by
        rw [hgrown, h.columns]
        exact allowed_rows time _
      obtain ⟨t', hgo, hk, hc, hr, hs⟩ := Sql.Table.insert_ok hps (by rw [h.seq]; exact hseq) hallowed
      rw [dif_pos hseq]
      rw [h.seq] at hgo hs
      exact .inl ⟨_, _, t', rfl, hgo, hk.trans h.key, hc.trans h.columns, hr.trans hgrown, hs⟩
    · rw [dif_neg hseq]
      exact .inr ⟨rfl, Sql.Table.insert_full hps (by rw [h.seq]; exact hseq)⟩

omit h

/-! ### Calls -/

theorem mem_upsertFile {l l' : Ledger} {name : Text} {size : UInt64} {created : DateTime}
    {ipd ipf ipb chunkSize : UInt32} {id : FileId}
    (h : l.upsertFile name size created ipd ipf ipb chunkSize = .ok (id, l')) {r : FileRecord} (hr : r ∈ l'.rows) :
    r ∈ l.rows ∨ (r.createdAt = created ∧ r.queuedAt = none) := by
  unfold Ledger.upsertFile at h
  split at h
  · cases h
    exact .inl hr
  · split at h
    · cases h
      rcases List.mem_append.1 hr with hr | hr
      · exact .inl hr
      · rw [List.mem_singleton.1 hr]
        exact .inr ⟨rfl, rfl⟩
    · cases h

/-- **Every record's times read back**, as long as those of the calls do. -/
theorem timed_call (ht : ∀ r ∈ l.rows, r.Timed time) {c : LedgerCall} (hc : ∀ t ∈ c.times, time.Reads t) :
    ∀ r ∈ (l.call time c).2.rows, r.Timed time := by
  cases c with
  | get | getByName | all | dumpCsv => exact ht
  | markGone name =>
    intro r hr
    obtain ⟨s, hs, rfl⟩ := List.mem_map.1 hr
    split
    · exact ht s hs
    · exact ht s hs
  | markQueued id when =>
    intro r hr
    obtain ⟨s, hs, rfl⟩ := List.mem_map.1 hr
    split
    · refine ⟨(ht s hs).1, fun t htw => ?_⟩
      cases htw
      exact hc when List.mem_cons_self
    · exact ht s hs
  | upsertFile name size created ipd ipf ipb chunkSize =>
    intro r hr
    cases hgo : l.upsertFile name size created ipd ipf ipb chunkSize with
    | ok p =>
      simp only [Ledger.call, hgo] at hr
      rcases mem_upsertFile hgo hr with hr | ⟨hcreated, hqueued⟩
      · exact ht r hr
      · exact ⟨hcreated ▸ hc created List.mem_cons_self, fun t htq => by rw [hqueued] at htq; cases htq⟩
    | error e =>
      simp only [Ledger.call, hgo] at hr
      exact ht r hr

/-- **A call answers as the ledger does**, and commits at most once, to what the ledger is then. -/
theorem call_today {w : Database} (hw : w.current = some t) (h : Today time t l) {c : LedgerCall}
    (hc : ∀ t ∈ c.times, time.Reads t) (now : DateTime) :
    (call time now w c).1 = (l.call time c).1 ∧
    (((call time now w c).2 = w ∧ (l.call time c).2 = l) ∨
      ∃ t', (call time now w c).2 = w.commit (some t') ∧ Today time t' (l.call time c).2) := by
  have ht' := timed_call h.timed hc
  rw [call, hw]
  cases c with
  | get id => exact ⟨congrArg (answer .record) (get_shows h.shows h.timed now id), .inl ⟨rfl, rfl⟩⟩
  | getByName name => exact ⟨congrArg (answer .record) (getByName_shows h.shows h.timed now name), .inl ⟨rfl, rfl⟩⟩
  | all => exact ⟨congrArg (answer .records) (all_shows h.shows h.timed now), .inl ⟨rfl, rfl⟩⟩
  | dumpCsv => exact ⟨congrArg (answer .text) (dumpCsv_shows h.shows h.timed now), .inl ⟨rfl, rfl⟩⟩
  | markGone name =>
    obtain ⟨t', hgo, hshows⟩ := markGone_shows h.shows name
    have hstep := congrArg (execute w) hgo
    exact ⟨congrArg Prod.fst hstep, .inr ⟨t', congrArg Prod.snd hstep, hshows, ht'⟩⟩
  | markQueued id when =>
    obtain ⟨t', hgo, hshows⟩ := markQueued_shows h.shows id when
    have hstep := congrArg (execute w) hgo
    exact ⟨congrArg Prod.fst hstep, .inr ⟨t', congrArg Prod.snd hstep, hshows, ht'⟩⟩
  | upsertFile name size created ipd ipf ipb chunkSize =>
    rcases upsertFile_shows h.shows name size created ipd ipf ipb chunkSize with
      ⟨id, l', t', hl, hgo, hshows⟩ | ⟨hl, hgo⟩
    · have hcall : l.call time (.upsertFile name size created ipd ipf ipb chunkSize) = (.id id, l') := by
        rw [Ledger.call, hl]
      have hstep := congrArg (committed w) (Sql.Table.transaction_ok hgo)
      rw [hcall] at ht' ⊢
      exact ⟨congrArg Prod.fst hstep, .inr ⟨t', congrArg Prod.snd hstep, hshows, ht'⟩⟩
    · have hcall : l.call time (.upsertFile name size created ipd ipf ipb chunkSize) = (.failed .sqlite, l) := by
        rw [Ledger.call, hl]
      have hstep := congrArg (committed w) (Sql.Table.transaction_error hgo)
      rw [hcall]
      exact ⟨congrArg Prod.fst hstep, .inl ⟨congrArg Prod.snd hstep, rfl⟩⟩

/-! ### Opening -/

/-- The table just created holds nothing. -/
theorem today_create (time : Rfc3339) : Today time (Table.create "file_id" FILES) .empty :=
  ⟨⟨rfl, rfl, rfl, rfl⟩, Ledger.empty_rows_nil⟩

/-- **A table of before has every record it had, none of them queued, once it has its column.** -/
theorem addColumn_old (h : Shows FILES.dropLast (·.oldRow time) t l) (ht : ∀ r ∈ l.rows, r.Timed time)
    (hq : ∀ r ∈ l.rows, r.queuedAt = none) : ∃ t', t.addColumn "queued_at" = .ok t' ∧ Today time t' l := by
  have hnew : ¬ ("queued_at" = t.key ∨ "queued_at" ∈ t.columns.map (·.name)) := by
    rw [h.key, h.columns]
    decide +kernel
  obtain ⟨t', hgo, hk, hc, hr, hs⟩ := Sql.Table.addColumn_ok hnew
  have hcolumns : t'.columns = FILES := by
    rw [hc, h.columns]
    rfl
  have hrows : t'.rows = l.rows.map (·.row time) := by
    rw [hr, Sql.Table.widened, h.rows, List.map_map]
    refine List.map_congr_left (fun r hr => ?_)
    simp [FileRecord.oldRow, FileRecord.row, FileRecord.cells, hq r hr, optText]
  exact ⟨t', hgo, ⟨hk.trans h.key, hcolumns, hrows, hs.trans h.seq⟩, ht⟩

theorem migrate_today {w : Database} (hw : w.current = some t) (h : Today time t l) : migrate w = .ok w := by
  have hin : "queued_at" ∈ tableInfo t := by
    rw [tableInfo, h.shows.key, h.shows.columns]
    decide +kernel
  simp only [migrate, hw, if_pos hin]

theorem migrate_old {w : Database} (hw : w.current = some t) (h : Shows FILES.dropLast (·.oldRow time) t l)
    (ht : ∀ r ∈ l.rows, r.Timed time) (hq : ∀ r ∈ l.rows, r.queuedAt = none) :
    ∃ t', migrate w = .ok (w.commit (some t')) ∧ Today time t' l := by
  have hin : "queued_at" ∉ tableInfo t := by
    rw [tableInfo, h.key, h.columns]
    decide +kernel
  obtain ⟨t', hgo, htoday⟩ := addColumn_old h ht hq
  exact ⟨t', by simp only [migrate, hw, if_neg hin, hgo, bind, Except.bind], htoday⟩

/-- **Opening gives a table of today with what the database held.** -/
theorem openLedger_stored {l₀ : Ledger} {w : Database} {safe cs : List LedgerCall}
    (h : w.Remembers (fun db cs => Stored time db (l₀.after time cs)) safe cs) : ∃ w' t, openLedger w = .ok w' ∧
      w'.Remembers (fun db cs => Stored time db (l₀.after time cs)) safe cs ∧ w'.current = some t ∧
      Today time t (l₀.after time cs) := by
  have hnow := h.current
  cases hw : w.current with
  | none =>
    have hempty : l₀.after time cs = .empty := by
      rw [hw] at hnow
      generalize l₀.after time cs = l at hnow
      cases hnow
      rfl
    have htoday := today_create time
    refine ⟨w.commit (some (Table.create "file_id" FILES)), _, ?_, h.recommit ?_, rfl, hempty ▸ htoday⟩
    · simp only [openLedger, createFiles, hw]
      exact migrate_today rfl htoday
    · exact hempty ▸ .today htoday
  | some t =>
    have hcreate : openLedger w = migrate w := by simp only [openLedger, createFiles, hw]
    rw [hw] at hnow
    rw [hcreate]
    cases hnow with
    | old hshows ht hq =>
      obtain ⟨t', hgo, htoday⟩ := migrate_old hw hshows ht hq
      exact ⟨_, t', hgo, h.recommit (.today htoday), rfl, htoday⟩
    | today htoday => exact ⟨w, t, migrate_today hw htoday, h, hw, htoday⟩

/-! ### Runs -/

theorem after_concat (time : Rfc3339) (l : Ledger) (cs : List LedgerCall) (c : LedgerCall) :
    l.after time (cs ++ [c]) = ((l.after time cs).call time c).2 := by
  rw [Ledger.after, List.foldl_concat]
  rfl

/-- **One call is remembered.** -/
theorem call_remembers {l₀ : Ledger} {w : Database} {safe cs : List LedgerCall}
    (h : w.Remembers (fun db cs => Stored time db (l₀.after time cs)) safe cs) (hw : w.current = some t)
    (htoday : Today time t (l₀.after time cs)) {c : LedgerCall} (hc : ∀ t ∈ c.times, time.Reads t) (now : DateTime) :
    ∃ t', (call time now w c).2.Remembers (fun db cs => Stored time db (l₀.after time cs)) safe (cs ++ [c]) ∧
      (call time now w c).2.current = some t' ∧ Today time t' (l₀.after time (cs ++ [c])) := by
  rw [after_concat]
  rcases (call_today hw htoday hc now).2 with ⟨hsame, hl⟩ | ⟨t', hcommit, htoday'⟩
  · rw [hsame, hl]
    refine ⟨t, h.silent [c] ?_, hw, htoday⟩
    rw [hw, after_concat, hl]
    exact .today htoday
  · rw [hcommit]
    refine ⟨t', h.commit [c] ?_, rfl, htoday'⟩
    rw [after_concat]
    exact .today htoday'

/-- **Every run of a database that holds a ledger goes through and answers as the ledger does.** -/
theorem run_recalls {l₀ : Ledger} : ∀ (es : List Event) {w : Database} {t : Table} {safe cs : List LedgerCall},
    (∀ e ∈ es, ∀ t ∈ e.times, time.Reads t) →
    w.Remembers (fun db cs => Stored time db (l₀.after time cs)) safe cs → w.current = some t →
    Today time t (l₀.after time cs) → ∃ as, run time w es = .ok as ∧ Recalls time l₀ safe cs es as
  | [], _, _, safe, cs, _, _, _, _ => ⟨[], rfl, .nil safe cs⟩
  | e :: es, w, t, safe, cs, ht, h, hw, htoday => by
    have hes : ∀ e ∈ es, ∀ t ∈ e.times, time.Reads t := fun e he => ht e (List.mem_cons_of_mem _ he)
    cases e with
    | call c now =>
      have hc : ∀ t ∈ c.times, time.Reads t := ht _ List.mem_cons_self
      obtain ⟨t', h', hw', htoday'⟩ := call_remembers h hw htoday hc now
      obtain ⟨as, hrun, has⟩ := run_recalls es hes h' hw' htoday'
      refine ⟨_ :: as, ?_, .call has⟩
      simp only [run, step, bind, Except.bind, hrun, (call_today hw htoday hc now).1, List.singleton_append]
    | checkpoint =>
      obtain ⟨as, hrun, has⟩ := run_recalls es hes h.checkpoint hw htoday
      exact ⟨as, by simp only [run, step, bind, Except.bind, hrun, List.nil_append], .checkpoint has⟩
    | restart lost =>
      -- the process comes back to a prefix of its calls; with no commit lost the log, and so the prefix, is whole
      have hcut : ∃ kept, safe <+: kept ∧ kept <+: cs ∧ (lost = 0 → kept = cs) ∧
          (w.cut lost).Remembers (fun db cs => Stored time db (l₀.after time cs)) safe kept := by
        by_cases hlost : lost = 0
        · exact ⟨cs, h.safe_prefix, List.prefix_refl _, fun _ => rfl, by rw [hlost]; exact h⟩
        · obtain ⟨kept, hsafe, hkept, hrem⟩ := h.cut lost
          exact ⟨kept, hsafe, hkept, fun h0 => absurd h0 hlost, hrem⟩
      obtain ⟨kept, hsafe, hkept, hall, hrem⟩ := hcut
      obtain ⟨w', t', hopen, hrem', hw', htoday'⟩ := openLedger_stored hrem
      obtain ⟨as, hrun, has⟩ := run_recalls es hes hrem' hw' htoday'
      exact ⟨as, by simp only [run, step, bind, Except.bind, hopen, hrun, List.nil_append],
        .restart hsafe hkept hall has⟩

/-- **The sender starts**: what its database holds is there, and every run goes through. -/
theorem boot_recalls {db : Option Table} (h : Stored time db l) (es : List Event)
    (ht : ∀ e ∈ es, ∀ t ∈ e.times, time.Reads t) : ∃ as, boot time db es = .ok as ∧ Recalls time l [] [] es as := by
  have hrem : (⟨db, []⟩ : Database).Remembers (fun db cs => Stored time db (l.after time cs)) [] [] :=
    Wal.remembers_base h
  obtain ⟨w, t, hopen, hrem', hw, htoday⟩ := openLedger_stored hrem
  obtain ⟨as, hrun, has⟩ := run_recalls es ht hrem' hw htoday
  exact ⟨as, by simp only [boot, hopen, hrun, bind, Except.bind], has⟩

end LedgerDb

/-- A ledger of one file that has never been queued, and its table from before `queued_at`. -/
def Ledger.unqueued : Ledger := Ledger.empty.insert ⟨0, ['a'], 40, 0, 0, 0, 0, true, 64, none, none⟩ empty_room rfl

def oldFiles : Table where
  key := "file_id"
  columns := FILES.dropLast
  rows := Ledger.unqueued.rows.map (·.oldRow .epoch)
  seq := 1
  width := by decide +kernel
  ids := by decide +kernel
  bound := by decide +kernel
  allowed := by decide +kernel

theorem reads_epoch : Rfc3339.epoch.Reads 0 := by
  unfold Rfc3339.Reads
  decide +kernel

theorem stored_oldFiles : Stored .epoch (some oldFiles) .unqueued := by
  refine .old ⟨rfl, rfl, rfl, rfl⟩ (fun r hr => ?_) (fun r hr => ?_)
  · rw [List.mem_singleton.1 hr]
    exact ⟨reads_epoch, fun t ht => by cases ht⟩
  · rw [List.mem_singleton.1 hr]

/-- A file is queued, and another one registered just before a loss of power. -/
def lastLost : List LedgerDb.Event :=
  [.call (.markQueued 1 0) 7, .checkpoint, .call (.upsertFile ['b'] 1 0 0 0 0 64) 7, .restart 1, .call .all 7]

theorem boot_lastLost : LedgerDb.boot .epoch (some oldFiles) lastLost =
    .ok [.done, .id 2, .records [⟨1, ['a'], 40, 0, 0, 0, 0, true, 64, none, some 0⟩]] := by decide +kernel

namespace Ledger

theorem extends_call (time : Rfc3339) (l : Ledger) (c : LedgerCall) : l.Extends (l.call time c).2 := by
  cases c with
  | get | getByName | all | dumpCsv => exact .refl l
  | markGone name => exact l.extends_markGone name
  | markQueued id when => exact l.extends_markQueued id when
  | upsertFile name size created ipd ipf ipb chunkSize =>
    simp only [Ledger.call]
    split
    · rename_i id l' hgo
      exact (upsertFile_ok hgo).1
    · exact .refl l

theorem extends_after (time : Rfc3339) : ∀ (cs : List LedgerCall) (l : Ledger), l.Extends (l.after time cs)
  | [], l      => .refl l
  | c :: cs, l => (l.extends_call time c).trans (extends_after time cs (l.call time c).2)

theorem after_append (time : Rfc3339) (l : Ledger) (cs ds : List LedgerCall) :
    l.after time (cs ++ ds) = (l.after time cs).after time ds := List.foldl_append

/-- The file a row is about, by its id and by its name. -/
theorem id_eq_iff {l : Ledger} {id id' : FileId} {r r' : FileRecord} (h : l.get id = some r) (h' : l.get id' = some r') :
    id = id' ↔ r.fileName = r'.fileName := by
  constructor
  · rintro rfl
    rw [Option.some.inj (h.symm.trans h')]
  · intro hn
    have hnodup : (l.rows.map (·.fileName)).Nodup := List.pairwise_map.2 l.unique
    have heq : r = r' := List.inj_on_of_nodup_map hnodup (mem_of_get h).1 (mem_of_get h').1 hn
    rw [← (mem_of_get h).2, ← (mem_of_get h').2, heq]

end Ledger

namespace LedgerDb

def Event.call? : Event → Option LedgerCall
  | .call c _ => some c
  | _         => none

def calls (es : List Event) : List LedgerCall := es.filterMap Event.call?

/-- The name and the id of a call that registered a file. -/
def registration : LedgerCall × LedgerAnswer → Option (Text × FileId)
  | (.upsertFile name _ _ _ _ _ _, .id id) => some (name, id)
  | _                                      => none

/-- The files registered in a run, with the ids they were given. -/
def registered (es : List Event) (as : List LedgerAnswer) : List (Text × FileId) :=
  ((calls es).zip as).filterMap registration

theorem registration_call {time : Rfc3339} {l : Ledger} {c : LedgerCall} {name : Text} {id : FileId}
    (h : registration (c, (l.call time c).1) = some (name, id)) :
    ∃ r, (l.call time c).2.get id = some r ∧ r.fileName = name := by
  cases c with
  | get | getByName | markGone | markQueued | all | dumpCsv => cases h
  | upsertFile name' size created ipd ipf ipb chunkSize =>
    cases hgo : l.upsertFile name' size created ipd ipf ipb chunkSize with
    | error e =>
      simp only [Ledger.call, hgo] at h
      cases h
    | ok p =>
      simp only [Ledger.call, hgo] at h ⊢
      cases h
      exact (Ledger.upsertFile_ok hgo).2.1

/-- **While no commit is lost, the ledger in the end has every file under the id it was given.** -/
theorem registered_get {time : Rfc3339} {l : Ledger} {safe cs : List LedgerCall} {es : List Event}
    {as : List LedgerAnswer} (h : Recalls time l safe cs es as) (hlost : ∀ n, Event.restart n ∈ es → n = 0) :
    ∀ p ∈ registered es as, ∃ r, (l.after time (cs ++ calls es)).get p.2 = some r ∧ r.fileName = p.1 := by
  induction h with
  | nil => exact fun p hp => by cases hp
  | @call safe cs c now es as h ih =>
    intro p hp
    have hrest := ih (fun n hn => hlost n (List.mem_cons_of_mem _ hn))
    have hafter : cs ++ calls (.call c now :: es) = cs ++ [c] ++ calls es := by
      rw [List.append_assoc]
      rfl
    rw [hafter]
    simp only [registered, calls, List.filterMap_cons, Event.call?, List.zip_cons_cons] at hp
    split at hp
    · exact hrest p hp
    · rename_i q hq
      rcases List.mem_cons.1 hp with rfl | hp
      · obtain ⟨r, hr, hname⟩ := registration_call hq
        rw [← after_concat] at hr
        obtain ⟨r', hr', hname', -⟩ := Ledger.extends_after time (calls es) _ _ _ hr
        exact ⟨r', by rw [Ledger.after_append]; exact hr', hname'.trans hname⟩
      · exact hrest p hp
  | checkpoint h ih => exact ih (fun n hn => hlost n (List.mem_cons_of_mem _ hn))
  | @restart safe cs kept lost es as hsafe hkept hall h ih =>
    rw [hall (hlost lost List.mem_cons_self)] at ih
    exact ih (fun n hn => hlost n (List.mem_cons_of_mem _ hn))

end LedgerDb

/-- A file registered before and after a restart, and another one. -/
def twiceRegistered : List LedgerDb.Event :=
  [.call (.upsertFile ['b'] 1 0 0 0 0 64) 7, .restart 0, .call (.upsertFile ['b'] 9 0 0 0 0 64) 7,
    .call (.upsertFile ['c'] 1 0 0 0 0 64) 7]

end Parachuter
