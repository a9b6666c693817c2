import Mathlib.Data.List.Pairwise
import Mathlib.Data.List.Nodup
/-!
# Tables — rows of cells under named columns, and the statements that read and change them

A table has a key column, whose values it gives out itself in ascending order and never twice (`INTEGER PRIMARY KEY
AUTOINCREMENT`), and columns that may be declared `NOT NULL` and `UNIQUE`.  A statement names its columns; it fails on a
name the table does not have, and one that would break a declaration fails and changes nothing.  What a table's
declarations ask of its rows is a field of it.
-/
namespace Sql

inductive Cell
  | null
  | integer (i : Int64)
  | text (t : List Char)
  deriving DecidableEq, Repr

/-- Why a statement, or the reading of its answer, fails. -/
inductive Fault
  | noSuchTable
  | noSuchColumn (name : String)
  | duplicateColumn (name : String)
  | constraint
  | full
  | wrongType
  deriving DecidableEq, Repr

/-- A column as declared. -/
structure Column where
  name    : String
  notNull : Bool
  unique  : Bool
  default : Cell
  deriving DecidableEq, Repr

/-- A row: its key, and a cell for every other column. -/
structure Row where
  rowid : Int64
  cells : List Cell
  deriving DecidableEq, Repr

/-- What a column's declaration asks of its cells, from the first row to the last; nulls are all different. -/
def Column.Allows (c : Column) (cells : List Cell) : Prop :=
  (c.notNull = true → .null ∉ cells) ∧ (c.unique = true → (cells.filter (· ≠ .null)).Nodup)

instance (c : Column) (cells : List Cell) : Decidable (c.Allows cells) := by
  unfold Column.Allows
  infer_instance

/-- The cell of a row in the column at a position. -/
def Row.at (r : Row) (i : Nat) : Cell := r.cells.getD i .null

/-- What the declarations ask of the rows. -/
def Allowed (columns : List Column) (rows : List Row) : Prop :=
  ∀ p ∈ columns.zipIdx, p.1.Allows (rows.map (·.at p.2))

instance (columns : List Column) (rows : List Row) : Decidable (Allowed columns rows) := by
  unfold Allowed
  infer_instance

/-- The largest key. -/
def MAX_ROWID : Nat := 9223372036854775807

theorem toInt_ofNat {n : Nat} (h : n ≤ MAX_ROWID) : (Int64.ofNat n).toInt = n := by
  refine Int64.toInt_ofNat_of_lt ?_
  unfold MAX_ROWID at h
  omega

/-- A table: its rows in order of their keys, and the largest key ever given. -/
structure Table where
  key     : String
  columns : List Column
  rows    : List Row
  seq     : Nat
  width   : ∀ r ∈ rows, r.cells.length = columns.length
  ids     : rows.Pairwise (fun r s => r.rowid.toInt < s.rowid.toInt)
  bound   : ∀ r ∈ rows, r.rowid.toInt ≤ seq
  allowed : Allowed columns rows

theorem allowed_nil (columns : List Column) : Allowed columns [] :=
  fun _ _ => ⟨fun _ => List.not_mem_nil, fun _ => List.nodup_nil⟩

namespace Table

/-- `CREATE TABLE`. -/
def create (key : String) (columns : List Column) : Table where
  key := key
  columns := columns
  rows := []
  seq := 0
  width := fun _ h => by cases h
  ids := .nil
  bound := fun _ h => by cases h
  allowed := allowed_nil columns

/-! ## Reading -/

/-- Where a statement finds a column: the key, or a position among the others. -/
inductive Place
  | key
  | column (i : Nat)
  deriving DecidableEq, Repr

def place (key : String) (columns : List Column) (name : String) : Except Fault Place :=
  if name = key then .ok .key
  else match columns.findIdx? (·.name = name) with
    | some i => .ok (.column i)
    | none   => .error (.noSuchColumn name)

def cellAt (r : Row) : Place → Cell
  | .key      => .integer r.rowid
  | .column i => r.at i

/-- A condition `name = v`.  It is not true of a null. -/
structure Cond where
  name  : String
  value : Cell

def Cond.test (cond : Cond) (p : Place) (r : Row) : Bool := cellAt r p = cond.value && cond.value ≠ .null

/-- The rows a statement is about, in order of their keys. -/
def scan (t : Table) : Option Cond → Except Fault (List Row)
  | none      => .ok t.rows
  | some cond => do
    let p ← place t.key t.columns cond.name
    .ok (t.rows.filter (cond.test p))

/-- `SELECT names FROM t WHERE cond ORDER BY key`. -/
def select (t : Table) (names : List String) (cond : Option Cond) : Except Fault (List (List Cell)) := do
  let ps ← names.mapM (place t.key t.columns)
  let rows ← t.scan cond
  .ok (rows.map (fun r => ps.map (cellAt r)))

/-! ## Changing -/

/-- The cells of a new row: the values for the columns named, the defaults for the rest. -/
def fresh (columns : List Column) (names : List String) (values : List Cell) : List Cell :=
  columns.map (fun c => ((names.zip values).lookup c.name).getD c.default)

/-- The rows with one more under the next key. -/
def grown (t : Table) (cells : List Cell) : List Row := t.rows ++ [⟨Int64.ofNat (t.seq + 1), cells⟩]

theorem mem_grown {t : Table} {cells : List Cell} {r : Row} (h : r ∈ t.grown cells) :
    r ∈ t.rows ∨ r = ⟨Int64.ofNat (t.seq + 1), cells⟩ := by
  rcases List.mem_append.1 h with h | h
  · exact .inl h
  · exact .inr (List.mem_singleton.1 h)

/-- `INSERT INTO t (names) VALUES (values)`, of columns other than the key. -/
def insert (t : Table) (names : List String) (values : List Cell) : Except Fault (Int64 × Table) := do
  let _ ← names.mapM (place t.key t.columns)
  if hseq : t.seq + 1 ≤ MAX_ROWID then
    if h : Allowed t.columns (t.grown (fresh t.columns names values)) then
      .ok (Int64.ofNat (t.seq + 1),
        { key := t.key, columns := t.columns, rows := t.grown (fresh t.columns names values), seq := t.seq + 1
          allowed := h
          width := by
            intro r hr
            rcases mem_grown hr with hr | rfl
            · exact t.width r hr
            · exact List.length_map _
          ids := by
            refine List.pairwise_append.2 ⟨t.ids, List.pairwise_singleton _ _, fun r hr s hs => ?_⟩
            rw [List.mem_singleton.1 hs, toInt_ofNat hseq]
            have := t.bound r hr
            omega
          bound := by
            intro r hr
            rcases mem_grown hr with hr | rfl
            · have := t.bound r hr
              omega
            · exact Int.le_of_eq (toInt_ofNat hseq) })
    else .error .constraint
  else .error .full

/-- The rows with another cell at one position where a condition holds. -/
def changed (rows : List Row) (i : Nat) (v : Cell) (test : Row → Bool) : List Row :=
  rows.map (fun r => if test r then { r with cells := r.cells.set i v } else r)

theorem rowid_changed (i : Nat) (v : Cell) (test : Row → Bool) (r : Row) :
    (if test r then { r with cells := r.cells.set i v } else r).rowid = r.rowid := by
  split <;> rfl

/-- `UPDATE t SET name = v WHERE cond`, of a column other than the key. -/
def update (t : Table) (name : String) (v : Cell) (cond : Cond) : Except Fault Table := do
  let p ← place t.key t.columns cond.name
  match t.columns.findIdx? (·.name = name) with
  | none   => .error (.noSuchColumn name)
  | some i =>
    if h : Allowed t.columns (changed t.rows i v (cond.test p)) then
      .ok { key := t.key, columns := t.columns, rows := changed t.rows i v (cond.test p), seq := t.seq, allowed := h
            width := by
              intro r hr
              obtain ⟨s, hs, rfl⟩ := List.mem_map.1 hr
              rw [← t.width s hs]
              split
              · exact List.length_set
              · rfl
            ids := by
              refine List.pairwise_map.2 (t.ids.imp (fun h => ?_))
              rw [rowid_changed, rowid_changed]
              exact h
            bound := by
              intro r hr
              obtain ⟨s, hs, rfl⟩ := List.mem_map.1 hr
              rw [rowid_changed]
              exact t.bound s hs }
    else .error .constraint

/-- The rows with a null in a new last column. -/
def widened (rows : List Row) : List Row := rows.map (fun r => { r with cells := r.cells ++ [.null] })

/-- A column that may hold anything. -/
def Column.plain (name : String) : Column := ⟨name, false, false, .null⟩

theorem at_widened {r : Row} {i : Nat} (h : i < r.cells.length) :
    Row.at { r with cells := r.cells ++ [.null] } i = r.at i := by
  simp only [Row.at, List.getD_eq_getElem?_getD, List.getElem?_append_left h]

theorem allowed_widened (t : Table) (name : String) : Allowed (t.columns ++ [Column.plain name]) (widened t.rows) := by
  intro p hp
  rw [List.zipIdx_append] at hp
  rcases List.mem_append.1 hp with hp | hp
  · have hlt := List.snd_lt_of_mem_zipIdx hp
    have hcells : (widened t.rows).map (·.at p.2) = t.rows.map (·.at p.2) := by
      rw [widened, List.map_map]
      refine List.map_congr_left (fun r hr => at_widened ?_)
      rw [t.width r hr]
      simpa using hlt
    rw [hcells]
    exact t.allowed p hp
  · obtain rfl : p = (Column.plain name, t.columns.length) := by simpa using hp
    exact ⟨fun h => absurd h Bool.false_ne_true, fun h => absurd h Bool.false_ne_true⟩

/-- `ALTER TABLE t ADD COLUMN name`, of a column that may hold anything. -/
def addColumn (t : Table) (name : String) : Except Fault Table :=
  if name = t.key ∨ name ∈ t.columns.map (·.name) then .error (.duplicateColumn name)
  else .ok
    { key := t.key, columns := t.columns ++ [Column.plain name], rows := widened t.rows, seq := t.seq
      allowed := allowed_widened t name
      width := by
        intro r hr
        obtain ⟨s, hs, rfl⟩ := List.mem_map.1 hr
        simp [t.width s hs]
      ids := List.pairwise_map.2 t.ids
      bound := by
        intro r hr
        obtain ⟨s, hs, rfl⟩ := List.mem_map.1 hr
        exact t.bound s hs }

/-! ## What the statements do when they go through -/

theorem select_where {t : Table} {names : List String} {ps : List Place} {cond : Cond} {p : Place}
    (hps : names.mapM (place t.key t.columns) = .ok ps) (hp : place t.key t.columns cond.name = .ok p) :
    t.select names (some cond) = .ok ((t.rows.filter (cond.test p)).map (fun r => ps.map (cellAt r))) := by
  simp only [select, scan, hps, hp, bind, Except.bind]

theorem select_all {t : Table} {names : List String} {ps : List Place}
    (hps : names.mapM (place t.key t.columns) = .ok ps) :
    t.select names none = .ok (t.rows.map (fun r => ps.map (cellAt r))) := by
  simp only [select, scan, hps, bind, Except.bind]

theorem insert_ok {t : Table} {names : List String} {ps : List Place} {values : List Cell}
    (hps : names.mapM (place t.key t.columns) = .ok ps) (hseq : t.seq + 1 ≤ MAX_ROWID)
    (h : Allowed t.columns (t.grown (fresh t.columns names values))) : ∃ t',
      t.insert names values = .ok (Int64.ofNat (t.seq + 1), t') ∧ t'.key = t.key ∧ t'.columns = t.columns ∧
      t'.rows = t.grown (fresh t.columns names values) ∧ t'.seq = t.seq + 1 := by
  simp only [insert, hps, bind, Except.bind, dif_pos hseq, dif_pos h]
  exact ⟨_, rfl, rfl, rfl, rfl, rfl⟩

/-- There is no key past the last one. -/
theorem insert_full {t : Table} {names : List String} {ps : List Place} {values : List Cell}
    (hps : names.mapM (place t.key t.columns) = .ok ps) (hseq : ¬ t.seq + 1 ≤ MAX_ROWID) :
    t.insert names values = .error .full := by
  simp only [insert, hps, bind, Except.bind, dif_neg hseq]

theorem update_ok {t : Table} {name : String} {v : Cell} {cond : Cond} {p : Place} {i : Nat}
    (hp : place t.key t.columns cond.name = .ok p) (hi : t.columns.findIdx? (·.name = name) = some i)
    (h : Allowed t.columns (changed t.rows i v (cond.test p))) : ∃ t', t.update name v cond = .ok t' ∧
      t'.key = t.key ∧ t'.columns = t.columns ∧ t'.rows = changed t.rows i v (cond.test p) ∧ t'.seq = t.seq := by
  simp only [update, hp, hi, bind, Except.bind, dif_pos h]
  exact ⟨_, rfl, rfl, rfl, rfl, rfl⟩

theorem addColumn_ok {t : Table} {name : String} (h : ¬ (name = t.key ∨ name ∈ t.columns.map (·.name))) : ∃ t',
    t.addColumn name = .ok t' ∧ t'.key = t.key ∧ t'.columns = t.columns ++ [Column.plain name] ∧
    t'.rows = widened t.rows ∧ t'.seq = t.seq :=
  ⟨_, if_neg h, rfl, rfl, rfl, rfl⟩

/-- A transaction: what it did stays only when all of it went through. -/
def transaction {α : Type} (body : Table → Except Fault (α × Table)) (t : Table) : Except Fault α × Table :=
  match body t with
  | .ok (a, t') => (.ok a, t')
  | .error e    => (.error e, t)

theorem transaction_ok {α : Type} {body : Table → Except Fault (α × Table)} {t t' : Table} {a : α}
    (h : body t = .ok (a, t')) : transaction body t = (.ok a, t') := by rw [transaction, h]

theorem transaction_error {α : Type} {body : Table → Except Fault (α × Table)} {t : Table} {e : Fault}
    (h : body t = .error e) : transaction body t = (.error e, t) := by rw [transaction, h]

end Table

end Sql
