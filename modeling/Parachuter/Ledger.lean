import Parachuter.Basic
/-!
# The sender's ledger (`ledger.rs`)

The `files` table, by its rows in order of `file_id`, with the counter behind `AUTOINCREMENT`.  Statements of SQLite
succeed, but for the insert that would need an id past the last one.
-/
namespace Parachuter

/-- A point in time, in nanoseconds since the epoch. -/
abbrev DateTime := Int

structure FileRecord where
  fileId        : FileId
  fileName      : Text
  fileSize      : UInt64
  createdAt     : DateTime
  imagesPerDark : UInt32
  imagesPerFlat : UInt32
  imagesPerBias : UInt32
  stillExists   : Bool
  chunkSize     : UInt32
  sha256        : Option Text
  queuedAt      : Option DateTime
  deriving DecidableEq, Repr

/-- The table.  `seq` is the largest id ever given; ids are positive, ascending and not above it, and names are
unique. -/
structure Ledger where
  rows : List FileRecord
  seq  : Nat
  ids    : rows.Pairwise (fun r s => r.fileId.toInt < s.fileId.toInt)
  bound  : ∀ r ∈ rows, r.fileId.toInt ≤ seq
  unique : rows.Pairwise (fun r s => r.fileName ≠ s.fileName)

namespace Ledger

/-- A new database. -/
def empty : Ledger := ⟨[], 0, .nil, (fun _ h => by cases h), .nil⟩

theorem empty_rows_nil {P : FileRecord → Prop} : ∀ r ∈ empty.rows, P r := fun _ h => by cases h

def get (l : Ledger) (fileId : FileId) : Option FileRecord := l.rows.find? (fun r => r.fileId = fileId)

def getByName (l : Ledger) (name : Text) : Option FileRecord := l.rows.find? (fun r => r.fileName = name)

def all (l : Ledger) : List FileRecord := l.rows

/-- The largest `INTEGER PRIMARY KEY`. -/
def MAX_ROWID : Nat := 2 ^ 63 - 1

/-- An update of every row that leaves ids and names alone. -/
def update (l : Ledger) (f : FileRecord → FileRecord) (hid : ∀ r, (f r).fileId = r.fileId)
    (hname : ∀ r, (f r).fileName = r.fileName) : Ledger where
  rows := l.rows.map f
  seq := l.seq
  ids := by
    rw [List.pairwise_map]
    exact l.ids.imp (fun h => by rw [hid, hid]; exact h)
  bound := by
    intro r hr
    obtain ⟨s, hs, rfl⟩ := List.mem_map.1 hr
    rw [hid]
    exact l.bound s hs
  unique := by
    rw [List.pairwise_map]
    exact l.unique.imp (fun h => by rw [hname, hname]; exact h)

def markGone (l : Ledger) (name : Text) : Ledger :=
  l.update (fun r => if r.fileName = name then { r with stillExists := false } else r)
    (fun r => by split <;> rfl) (fun r => by split <;> rfl)

def markQueued (l : Ledger) (fileId : FileId) (when : DateTime) : Ledger :=
  l.update (fun r => if r.fileId = fileId then { r with queuedAt := some when } else r)
    (fun r => by split <;> rfl) (fun r => by split <;> rfl)

theorem empty_room : empty.seq + 1 ≤ MAX_ROWID := by decide

theorem toInt_ofNat {n : Nat} (h : n ≤ MAX_ROWID) : (Int64.ofNat n).toInt = n := by
  refine Int64.toInt_ofNat_of_lt ?_
  unfold MAX_ROWID at h
  omega

/-- The insert of a row under the next id. -/
def insert (l : Ledger) (r : FileRecord) (hseq : l.seq + 1 ≤ MAX_ROWID) (hname : l.getByName r.fileName = none) : Ledger where
  rows := l.rows ++ [{ r with fileId := Int64.ofNat (l.seq + 1) }]
  seq := l.seq + 1
  ids := by
    rw [List.pairwise_append]
    refine ⟨l.ids, List.pairwise_singleton _ _, fun s hs t ht => ?_⟩
    rw [List.mem_singleton.1 ht]
    show s.fileId.toInt < (Int64.ofNat (l.seq + 1)).toInt
    have := l.bound s hs
    rw [toInt_ofNat hseq]
    omega
  bound := by
    intro s hs
    rcases List.mem_append.1 hs with hs | hs
    · have := l.bound s hs
      omega
    · rw [List.mem_singleton.1 hs]
      exact Int.le_of_eq (toInt_ofNat hseq)
  unique := by
    rw [List.pairwise_append]
    refine ⟨l.unique, List.pairwise_singleton _ _, fun s hs t ht he => ?_⟩
    rw [List.mem_singleton.1 ht] at he
    have := List.find?_eq_none.1 hname s hs
    exact this (decide_eq_true he)

/-- `upsert_file`: an existing row keeps everything it has, its size and chunk size too. -/
def upsertFile (l : Ledger) (name : Text) (size : UInt64) (created : DateTime) (ipd ipf ipb chunkSize : UInt32) :
    Except Error (FileId × Ledger) :=
  match h : l.getByName name with
  | some r => .ok (r.fileId, l)
  | none   =>
    if hseq : l.seq + 1 ≤ MAX_ROWID then
      .ok (Int64.ofNat (l.seq + 1),
        l.insert ⟨0, name, size, created, ipd, ipf, ipb, true, chunkSize, none, none⟩ hseq h)
    else .error .sqlite

/-! ## What a lookup finds -/

theorem mem_of_get {l : Ledger} {id : FileId} {r : FileRecord} (h : l.get id = some r) : r ∈ l.rows ∧ r.fileId = id := by
  have hid := List.find?_some h
  exact ⟨List.mem_of_find?_eq_some h, of_decide_eq_true hid⟩

theorem get_of_mem {l : Ledger} {r : FileRecord} (h : r ∈ l.rows) : l.get r.fileId = some r := by
  obtain ⟨as, bs, hl⟩ := List.append_of_mem h
  have hids := l.ids
  rw [hl, List.pairwise_append] at hids
  unfold get
  rw [hl, List.find?_append, List.find?_eq_none.2, Option.none_or]
  · exact List.find?_cons_of_pos (decide_eq_true rfl)
  intro s hs hid
  have hlt := hids.2.2 s hs r List.mem_cons_self
  rw [of_decide_eq_true hid] at hlt
  exact absurd hlt (Int.lt_irrefl _)

theorem get_update (l : Ledger) {f : FileRecord → FileRecord} (hid : ∀ r, (f r).fileId = r.fileId)
    (hname : ∀ r, (f r).fileName = r.fileName) (id : FileId) : (l.update f hid hname).get id = (l.get id).map f := by
  have hp : (fun r => decide (r.fileId = id)) ∘ f = fun r => decide (r.fileId = id) := by
    funext r
    exact congrArg (fun i => decide (i = id)) (hid r)
  show (l.rows.map f).find? _ = _
  rw [List.find?_map, hp]
  rfl

theorem get_insert_of_some {l : Ledger} {r : FileRecord} {hseq : l.seq + 1 ≤ MAX_ROWID}
    {hname : l.getByName r.fileName = none} {id : FileId} {s : FileRecord} (h : l.get id = some s) :
    (l.insert r hseq hname).get id = some s := by
  show (l.rows ++ _).find? _ = _
  rw [List.find?_append]
  show ((l.get id).or _) = _
  rw [h]
  rfl

theorem get_next (l : Ledger) (hseq : l.seq + 1 ≤ MAX_ROWID) : l.get (Int64.ofNat (l.seq + 1)) = none := by
  unfold get
  rw [List.find?_eq_none]
  intro s hs hid
  have hle := l.bound s hs
  rw [of_decide_eq_true hid, toInt_ofNat hseq] at hle
  omega

theorem get_insert_self (l : Ledger) (r : FileRecord) (hseq : l.seq + 1 ≤ MAX_ROWID)
    (hname : l.getByName r.fileName = none) :
    (l.insert r hseq hname).get (Int64.ofNat (l.seq + 1)) = some { r with fileId := Int64.ofNat (l.seq + 1) } := by
  show (l.rows ++ _).find? _ = _
  rw [List.find?_append]
  show ((l.get _).or _) = _
  rw [get_next l hseq, Option.none_or]
  refine List.find?_cons_of_pos ?_
  exact decide_eq_true rfl

/-- No row is lost, none changes its name, and none that is gone comes back. -/
def Extends (l l' : Ledger) : Prop :=
  ∀ id r, l.get id = some r → ∃ r', l'.get id = some r' ∧ r'.fileName = r.fileName ∧
    (r.stillExists = false → r'.stillExists = false)

/-- Every row has the size its file has. -/
def Sized (size : Text → UInt64) (l : Ledger) : Prop := ∀ r ∈ l.rows, r.fileSize = size r.fileName

theorem Extends.refl (l : Ledger) : l.Extends l := fun _ r h => ⟨r, h, rfl, id⟩

theorem Extends.trans {l l' l'' : Ledger} (h : l.Extends l') (h' : l'.Extends l'') : l.Extends l'' := by
  intro id r hr
  obtain ⟨r', hr', hn, hg⟩ := h id r hr
  obtain ⟨r'', hr'', hn', hg'⟩ := h' id r' hr'
  exact ⟨r'', hr'', hn'.trans hn, fun hr => hg' (hg hr)⟩

theorem extends_update (l : Ledger) {f : FileRecord → FileRecord} (hid : ∀ r, (f r).fileId = r.fileId)
    (hname : ∀ r, (f r).fileName = r.fileName) (hgone : ∀ r, r.stillExists = false → (f r).stillExists = false) :
    l.Extends (l.update f hid hname) := by
  intro id r hr
  exact ⟨f r, by rw [get_update, hr]; rfl, hname r, hgone r⟩

theorem extends_markGone (l : Ledger) (name : Text) : l.Extends (l.markGone name) := by
  refine l.extends_update _ _ (fun r hr => ?_)
  split
  · rfl
  · exact hr

theorem extends_markQueued (l : Ledger) (id : FileId) (when : DateTime) : l.Extends (l.markQueued id when) := by
  refine l.extends_update _ _ (fun r hr => ?_)
  split <;> exact hr

theorem get_markGone {l : Ledger} {id : FileId} {r : FileRecord} (h : l.get id = some r) :
    (l.markGone r.fileName).get id = some { r with stillExists := false } := by
  unfold markGone
  rw [get_update, h, Option.map_some, if_pos rfl]

theorem get_markQueued {l : Ledger} {id : FileId} {r : FileRecord} (h : l.get id = some r) (fileId : FileId)
    (when : DateTime) : ∃ r', (l.markQueued fileId when).get id = some r' ∧ r'.fileName = r.fileName ∧
      r'.fileSize = r.fileSize := by
  unfold markQueued
  rw [get_update, h, Option.map_some]
  refine ⟨_, rfl, ?_⟩
  split
  · exact ⟨rfl, rfl⟩
  · exact ⟨rfl, rfl⟩

theorem isSome_getByName_update (l : Ledger) {f : FileRecord → FileRecord} (hid : ∀ r, (f r).fileId = r.fileId)
    (hname : ∀ r, (f r).fileName = r.fileName) (name : Text) :
    ((l.update f hid hname).getByName name).isSome = (l.getByName name).isSome := by
  have hp : (fun r => decide (r.fileName = name)) ∘ f = fun r => decide (r.fileName = name) := by
    funext r
    exact congrArg (fun n => decide (n = name)) (hname r)
  show ((l.rows.map f).find? _).isSome = _
  rw [List.find?_map, hp, Option.isSome_map]
  rfl

theorem isSome_getByName_markGone (l : Ledger) (gone name : Text) :
    ((l.markGone gone).getByName name).isSome = (l.getByName name).isSome := l.isSome_getByName_update _ _ name

/-- One name more, under the next id. -/
structure Adds (l l' : Ledger) (name : Text) : Prop where
  seq    : l'.seq = l.seq + 1
  listed : ∀ q, (l'.getByName q).isSome = ((l.getByName q).isSome || decide (name = q))

theorem adds_insert (l : Ledger) (r : FileRecord) (hseq : l.seq + 1 ≤ MAX_ROWID)
    (hname : l.getByName r.fileName = none) : l.Adds (l.insert r hseq hname) r.fileName where
  seq := rfl
  listed := by
    intro q
    show ((l.rows ++ _).find? _).isSome = _
    rw [List.find?_append, Option.isSome_or, List.find?_singleton]
    show _ = ((l.rows.find? _).isSome || _)
    dsimp only
    by_cases hq : r.fileName = q
    · simp [hq]
    · simp [hq]

theorem Adds.markQueued {l l' : Ledger} {name : Text} (h : l.Adds l' name) (id : FileId) (when : DateTime) :
    l.Adds (l'.markQueued id when) name :=
  ⟨h.seq, fun q => (l'.isSome_getByName_update _ _ q).trans (h.listed q)⟩

theorem Sized.update {size : Text → UInt64} {l : Ledger} (h : l.Sized size) {f : FileRecord → FileRecord}
    {hid : ∀ r, (f r).fileId = r.fileId} {hname : ∀ r, (f r).fileName = r.fileName}
    (hsize : ∀ r, (f r).fileSize = r.fileSize) : (l.update f hid hname).Sized size := by
  intro r hr
  obtain ⟨s, hs, rfl⟩ := List.mem_map.1 hr
  rw [hsize, hname]
  exact h s hs

theorem Sized.markGone {size : Text → UInt64} {l : Ledger} (h : l.Sized size) (name : Text) :
    (l.markGone name).Sized size := by
  unfold Ledger.markGone
  exact h.update (fun r => by split <;> rfl)

theorem Sized.markQueued {size : Text → UInt64} {l : Ledger} (h : l.Sized size) (id : FileId) (when : DateTime) :
    (l.markQueued id when).Sized size := by
  unfold Ledger.markQueued
  exact h.update (fun r => by split <;> rfl)

/-- **What registering a file gives**: its row, under the id returned, and every other row as it was. -/
theorem upsertFile_ok {l l' : Ledger} {name : Text} {fileSize : UInt64} {created : DateTime}
    {ipd ipf ipb chunkSize : UInt32} {id : FileId}
    (h : l.upsertFile name fileSize created ipd ipf ipb chunkSize = .ok (id, l')) :
    l.Extends l' ∧ (∃ r, l'.get id = some r ∧ r.fileName = name) ∧
    ∀ size : Text → UInt64, l.Sized size → fileSize = size name → l'.Sized size := by
  unfold upsertFile at h
  split at h
  · rename_i r hr
    cases h
    have hname := List.find?_some hr
    exact ⟨.refl l, ⟨r, get_of_mem (List.mem_of_find?_eq_some hr), of_decide_eq_true hname⟩, fun _ hs _ => hs⟩
  · split at h
    · cases h
      refine ⟨fun i r hr => ⟨r, get_insert_of_some hr, rfl, fun hg => hg⟩, ⟨_, get_insert_self _ _ _ _, rfl⟩, fun size hs hsize r hr => ?_⟩
      rcases List.mem_append.1 hr with hr | hr
      · exact hs r hr
      · rw [List.mem_singleton.1 hr]
        exact hsize
    · cases h

/-- **A new name gets a new id.** -/
theorem upsertFile_new {l : Ledger} {name : Text} (h : l.getByName name = none) (hseq : l.seq < MAX_ROWID)
    (fileSize : UInt64) (created : DateTime) (ipd ipf ipb chunkSize : UInt32) : ∃ id l',
      l.upsertFile name fileSize created ipd ipf ipb chunkSize = .ok (id, l') ∧ l.get id = none ∧ l.Adds l' name := by
  have hseq' : l.seq + 1 ≤ MAX_ROWID := hseq
  refine ⟨Int64.ofNat (l.seq + 1),
    l.insert ⟨0, name, fileSize, created, ipd, ipf, ipb, true, chunkSize, none, none⟩ hseq' h, ?_, get_next l hseq',
    l.adds_insert _ hseq' h⟩
  unfold upsertFile
  split
  · rename_i r hr
    rw [h] at hr
    cases hr
  · rw [dif_pos hseq']

/-- **There is none past the last id.** -/
theorem upsertFile_full {l : Ledger} {name : Text} (h : l.getByName name = none) (hseq : ¬ l.seq < MAX_ROWID)
    (fileSize : UInt64) (created : DateTime) (ipd ipf ipb chunkSize : UInt32) :
    l.upsertFile name fileSize created ipd ipf ipb chunkSize = .error .sqlite := by
  have hseq' : ¬ l.seq + 1 ≤ MAX_ROWID := hseq
  unfold upsertFile
  split
  · rename_i r hr
    rw [h] at hr
    cases hr
  · rw [dif_neg hseq']

end Ledger

end Parachuter
