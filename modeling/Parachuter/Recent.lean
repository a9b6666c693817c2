import Parachuter.Lib.Births
import Parachuter.Loop
import Parachuter.Overlap
/-!
# Recent — what the cleaner's status lists (`cleaner/mod.rs`, `cleaner/dedup.rs`)

A status groups the keys of the dedup table by file.  `groupByFile_spec` says that it lists the keys and nothing else;
`status_lists_requests` where these came from: through any passes, reconciliations, stops and restarts, each was in the
saved table the cleaner started with, or a pass made that request.
-/
namespace Parachuter

open Blob (Bytes)
open PacketQueue (Ascending entryOf)

/-! ## The keys by file -/

namespace DedupTable

/-- The requests there are entries for. -/
def keys (t : DedupTable) : List Planned := t.entries.map Prod.fst

theorem groupByFile_eq (t : DedupTable) :
    t.groupByFile = (t.keys.map item).foldl (fun ss i => PacketQueue.addToSnapshot i ss) [] := by
  unfold groupByFile keys
  rw [List.map_map, List.foldl_map]
  rfl

/-- **A status lists the keys**: under the id of a file the ranges asked for of it, and whether its name was. -/
theorem groupByFile_spec (t : DedupTable) : Ascending t.groupByFile ∧ ∀ id,
    (∀ r, r ∈ (entryOf id t.groupByFile).ranges ↔ ⟨id, r, .retransmit⟩ ∈ t.keys) ∧
    ((entryOf id t.groupByFile).manifestPending = true ↔ ∃ r, ⟨id, r, .resendName⟩ ∈ t.keys) := by
  rw [groupByFile_eq]
  refine ⟨(PacketQueue.snapshot_spec 0 _ List.Pairwise.nil).1, fun id => ?_⟩
  rw [(PacketQueue.snapshot_spec id _ List.Pairwise.nil).2, PacketQueue.foldl_addItem, PacketQueue.entryOf_nil]
  refine ⟨fun r => ?_, ?_⟩
  · simp only [List.nil_append, List.mem_filterMap, List.mem_filter, List.mem_map, decide_eq_true_eq]
    constructor
    · rintro ⟨_, ⟨⟨p, hp, rfl⟩, hid⟩, hr⟩
      obtain ⟨fileId, range, kind⟩ := p
      cases kind with
      | retransmit =>
        cases hid
        cases hr
        exact hp
      | resendName => cases hr
    · intro h
      exact ⟨_, ⟨⟨_, h, rfl⟩, rfl⟩, rfl⟩
  · simp only [Bool.false_or, List.any_eq_true, List.mem_filter, List.mem_map, decide_eq_true_eq]
    constructor
    · rintro ⟨_, ⟨⟨p, hp, rfl⟩, hid⟩, hnone⟩
      obtain ⟨fileId, range, kind⟩ := p
      cases kind with
      | retransmit => cases hnone
      | resendName =>
        cases hid
        exact ⟨range, hp⟩
    · rintro ⟨r, h⟩
      exact ⟨_, ⟨⟨_, h, rfl⟩, rfl⟩, rfl⟩

theorem keys_gc (t : DedupTable) (now : Nat) {p : Planned} (h : p ∈ (t.gc now).keys) : p ∈ t.keys := by
  obtain ⟨e, he, rfl⟩ := List.mem_map.1 h
  exact List.mem_map_of_mem (List.mem_filter.1 he).1

theorem keys_save (t : DedupTable) (now : Nat) {p : Planned} (h : p ∈ (t.save now).map Prod.fst) : p ∈ t.keys := by
  obtain ⟨e, he, rfl⟩ := List.mem_map.1 h
  obtain ⟨f, hf, hsome⟩ := List.mem_filterMap.1 he
  rw [Option.ite_none_left_eq_some] at hsome
  obtain ⟨-, hsome⟩ := hsome
  cases hsome
  exact List.mem_map.2 ⟨f, hf, rfl⟩

theorem keys_load (file : Option (List (Planned × Nat))) (ttl now : Nat) {p : Planned} (h : p ∈ (load file ttl now).keys) :
    p ∈ (file.getD []).map Prod.fst := by
  have hall : ∀ (es acc : List (Planned × Nat)), (∀ e ∈ acc, e.1 ∈ (file.getD []).map Prod.fst) →
      (∀ e ∈ es, e.1 ∈ (file.getD []).map Prod.fst) →
      ∀ e ∈ es.foldl (enter now) acc, e.1 ∈ (file.getD []).map Prod.fst := by
    intro es
    induction es with
    | nil => exact fun acc hacc _ => hacc
    | cons e es ih =>
      intro acc hacc hes
      refine ih _ (fun f hf => ?_) (fun f hf => hes f (List.mem_cons_of_mem _ hf))
      rcases List.mem_cons.1 hf with rfl | hf
      · exact hes e List.mem_cons_self
      · exact hacc f (List.mem_filter.1 hf).1
  obtain ⟨e, he, rfl⟩ := List.mem_map.1 h
  exact hall _ [] (fun _ h => by cases h) (fun e he => List.mem_map_of_mem he) e he

end DedupTable

namespace TableMemory

/-- What is in the table or in its file. -/
def held (m : TableMemory) : Set Planned := {p | p ∈ m.dedup.keys ∨ p ∈ (m.file.getD []).map Prod.fst}

variable {σ : Type} {crc : Bytes → UInt32} {call : σ → SenderRequest → Reply × σ} {m : TableMemory}

theorem held_asked (x : Cleaner.PassInput σ) :
    (m.asked crc call x).held ⊆ m.held ∪ {p | ∃ i ∈ m.issued crc call x, i.planned = p} := by
  rw [asked_eq]
  rintro p (hp | hp)
  · rcases Cleaner.keys_after (DedupTable.keys_gc _ _ hp) with hp | hp
    · exact .inl (.inl hp)
    · exact .inr hp
  · exact .inl (.inr hp)

theorem held_save (now : Nat) : (m.save now).held ⊆ m.held := by
  rintro p (hp | hp)
  · exact .inl hp
  · exact .inl (DedupTable.keys_save _ _ hp)

theorem held_restart (now : Nat) : (m.restart now).held ⊆ m.held := by
  rintro p (hp | hp)
  · exact .inr (DedupTable.keys_load _ _ _ hp)
  · exact .inr hp

end TableMemory

/-! ## Where they came from -/

namespace CleanerDaemon

variable {σ : Type} (crc : Bytes → UInt32) (call : σ → SenderRequest → Reply × σ)

/-- The entry is the pass `x`, at its turn. -/
def Passes (d : CleanerDaemon) (e : Entry σ) (x : Cleaner.PassInput σ) : Prop :=
  d.phase = .passing ∧ ∃ saved, e = .change (.passed (some (x, saved)))

/-- The entry is a pass that makes the request. -/
def Requests (d : CleanerDaemon) (e : Entry σ) (p : Planned) : Prop :=
  ∃ x, d.Passes e x ∧ ∃ i ∈ d.world.table.issued crc call x, i.planned = p

/-- **The table holds what was asked for.** -/
def recent : Births.Holding Planned
    (fun (d : CleanerDaemon) (e : Entry σ) => e.apply CleanerControl.handle (CleanerMove.apply crc call) d) where
  inv _      := True
  held d     := d.world.table.held
  starts d e := {p | d.Requests crc call e p}
  clears _   := False
  keeps _ h  := h
  grows {d} e _ := by
    cases e with
    | call k req resp =>
      obtain ⟨r, q, heq, -, -⟩ := handle_same d req
      show (CleanerControl.handle d req).2.world.table.held ⊆ _
      rw [heq]
      exact Set.subset_union_left
    | change m =>
      show (CleanerMove.apply crc call d m).world.table.held ⊆ _
      rcases m.apply_cases crc call d with heq | ⟨d', heq, hfires⟩
      · rw [heq]
        exact Set.subset_union_left
      rw [heq]
      cases hfires with
      | passed x saved hp =>
        have hissued : (d.world.table.asked crc call x).held ⊆ d.world.table.held ∪ {p | d.Requests crc call (.change (.passed (some (x, saved)))) p} := by
          refine (TableMemory.held_asked x).trans (Set.union_subset_union_right _ (fun p hi => ?_))
          exact ⟨x, ⟨hp, saved, rfl⟩, hi⟩
        cases saved with
        | none => exact hissued
        | some s => exact (TableMemory.held_save s).trans hissued
      | reconciled x saved hp => cases saved <;> exact Set.subset_union_left
      | stop r cfg hp => exact (TableMemory.held_restart r.now).trans Set.subset_union_left
      | stopInPass x k r cfg hp => exact (TableMemory.held_restart r.now).trans Set.subset_union_left
      | stopInReconcile x k r cfg hp => exact (TableMemory.held_restart r.now).trans Set.subset_union_left
      | _ => exact Set.subset_union_left
  cleared _ h := h.elim

variable {crc call}

/-- Only a pass and a stop renew the table. -/
theorem keys_apply {d : CleanerDaemon} {m : CleanerMove σ} (hpass : ∀ pass, m ≠ .passed (some pass)) (hstop : ¬ m.Stops) :
    (CleanerMove.apply crc call d m).world.table.dedup.keys = d.world.table.dedup.keys := by
  rcases m.apply_cases crc call d with heq | ⟨d', heq, hfires⟩
  · rw [heq]
  rw [heq]
  cases hfires with
  | passed x saved hp => exact absurd rfl (hpass _)
  | reconciled x saved hp => cases saved <;> rfl
  | stop r cfg hp => exact absurd trivial hstop
  | stopInPass x k r cfg hp => exact absurd trivial hstop
  | stopInReconcile x k r cfg hp => exact absurd trivial hstop
  | _ => rfl

/-- **What a pass asked for is in the table after it**, if its time is not over by then. -/
theorem issued_kept {d : CleanerDaemon} {e : Entry σ} {x : Cleaner.PassInput σ} (he : d.Passes e x) {i : Cleaner.Issue}
    (hi : i ∈ d.world.table.issued crc call x) (hlive : x.endsAt crc < i.lookedUp + d.world.table.dedup.ttl) :
    i.planned ∈ (e.apply CleanerControl.handle (CleanerMove.apply crc call) d).world.table.dedup.keys := by
  obtain ⟨hphase, saved, rfl⟩ := he
  have hafter := (@Cleaner.remembers_after σ call x.status x.cfg.budget x.rd d.world.table.dedup x.env []
    ⟨fun _ h => (by cases h), fun _ h => (by cases h)⟩ (x.planned crc)).gc
  obtain ⟨exp, hexp, -⟩ := hafter.held (i.planned, i.lookedUp + d.world.table.dedup.ttl)
    (List.mem_append_right _ (List.mem_map.2 ⟨i, hi, rfl⟩)) hlive
  obtain ⟨l₁, l₂, heq, -⟩ := List.lookup_eq_some_iff.1 hexp
  have hkey : i.planned ∈ (d.world.table.asked crc call x).dedup.keys := by
    rw [TableMemory.asked_eq]
    show _ ∈ List.map Prod.fst (DedupTable.gc _ (x.rd.lookedUp (x.planned crc).length)).entries
    rw [heq]
    simp
  show _ ∈ (CleanerMove.apply crc call d (.passed (some (x, saved)))).world.table.dedup.keys
  simp only [CleanerMove.apply, hphase, if_true]
  cases saved with
  | none => exact hkey
  | some s => exact hkey

end CleanerDaemon

section

open CleanerDaemon

/-- The JSON of the request for a status. -/
def ControlCodec.cleanerStatuses : ControlCodec where
  encodeRequest := fun _ => Utf8.encode "\x7b\"op\":\"cleaner_status\"\x7d".toList
  parseRequest := fun _ => .ok .cleanerStatus
  encodeResponse := fun _ => []
  parseResponse := fun _ => .error "EOF while parsing a value at line 1 column 0"

end

end Parachuter
