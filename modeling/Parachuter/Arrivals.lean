import Parachuter.Assembly
/-!
# Arrivals — a whole sequence of packets of one file

`ingestAll` feeds packets to `ingest` one after another.  By `ingest_simulates` the assembly follows the abstract run
(`ingestAll_simulates`), so what is marked, whether the name is known and which packet is answered `complete` can all
be read off the packets that arrived.
-/
namespace Parachuter

open Blob (Bytes)
open Calls (Res)

/-- The sidecar of an assembly, if it is there and readable. -/
def Disk.sidecar (crc : Bytes → UInt32) (d : Disk) (id : FileId) : Option Manifest :=
  (d.get (.manifest id)).bind (fun b => (Manifest.parse crc b).toOption)

theorem Disk.sidecar_some {crc : Bytes → UInt32} {d : Disk} {id : FileId} {m : Manifest} (h : d.sidecar crc id = some m) :
    ∃ buf, d.get (.manifest id) = some buf ∧ Manifest.parse crc buf = .ok m := by
  unfold Disk.sidecar at h
  rw [Option.bind_eq_some_iff] at h
  obtain ⟨buf, hbuf, hp⟩ := h
  refine ⟨buf, hbuf, ?_⟩
  cases hm : Manifest.parse crc buf with
  | error e => rw [hm] at hp; cases hp
  | ok m' => rw [hm] at hp; cases hp; rfl

theorem Disk.sidecar_of {crc : Bytes → UInt32} {d : Disk} {id : FileId} {m : Manifest} {buf : Bytes}
    (h : d.get (.manifest id) = some buf) (hp : Manifest.parse crc buf = .ok m) : d.sidecar crc id = some m := by
  rw [Disk.sidecar, h, Option.bind_some, hp]
  rfl

/-- The sidecar marks chunk `i`. -/
def Disk.marks (crc : Bytes → UInt32) (d : Disk) (id : FileId) (i : Nat) : Bool := (d.sidecar crc id).any (·.has i)

/-- The sidecar has a name. -/
def Disk.isNamed (crc : Bytes → UInt32) (d : Disk) (id : FileId) : Bool := (d.sidecar crc id).any (!·.name.isEmpty)

namespace Reassembler

/-- Packets fed to `ingest` in order: the answers and the disk they leave. -/
def ingestAll (crc : Bytes → UInt32) : List Packet → Disk → List (Res Error IngestOutcome) × Disk
  | [], d      => ([], d)
  | p :: ps, d =>
    let (o, d') := (ingest crc p).exec d
    let (os, d'') := ingestAll crc ps d'
    (o :: os, d'')

end Reassembler

namespace Progress

/-- The answers along a run. -/
def answers (n : Nat) : Option Progress → List Delivery → List IngestOutcome
  | _, []      => []
  | a, e :: es => (step n a e).1 :: answers n (step n a e).2 es

/-- Among the deliveries every chunk counts, and the name is one of them. -/
def Fills (n : Nat) (es : List Delivery) : Prop := (∀ i, i < n → Counts n (chunks es) i) ∧ Delivery.name ∈ es

theorem full_run (n : Nat) (es : List Delivery) : ((run n none es).getD empty).full n = true ↔ Fills n es := by
  unfold full Fills
  rw [Bool.and_eq_true, decide_eq_true_iff, named_run, and_comm]
  constructor
  · exact fun h => ⟨fun i hi => (mem_got_run n es i).1 (h.1 (Finset.mem_range.2 hi)), h.2⟩
  · exact fun h => ⟨fun i hi => (mem_got_run n es i).2 (h.1 i (Finset.mem_range.1 hi)), h.2⟩

theorem getElem?_answers (n : Nat) : ∀ (es : List Delivery) (a : Option Progress) (k : Nat) (hk : k < es.length),
    (answers n a es)[k]? = some (step n (run n a (es.take k)) es[k]).1
  | e :: es, a, 0, _      => rfl
  | e :: es, a, k + 1, hk => by
    simp only [answers, List.getElem?_cons_succ, List.getElem_cons_succ]
    rw [getElem?_answers n es _ k (Nat.lt_of_succ_lt_succ hk)]
    rfl

theorem run_take_succ (n : Nat) (es : List Delivery) (k : Nat) (hk : k < es.length) :
    run n none (es.take (k + 1)) = (step n (run n none (es.take k)) es[k]).2 := by
  rw [List.take_succ_eq_append_getElem hk, run_append]
  rfl

theorem not_fills_nil {n : Nat} : ¬ Fills n [] := fun h => by cases h.2

/-- **The first `complete`** along a run answers the delivery that first fills the assembly. -/
theorem first_complete (n : Nat) (es : List Delivery) (k : Nat) (hk : k < es.length) :
    ((answers n none es)[k]? = some .complete ∧ ∀ j, j < k → (answers n none es)[j]? ≠ some .complete) ↔
      (Fills n (es.take (k + 1)) ∧ ∀ j, j < k → ¬ Fills n (es.take (j + 1))) := by
  -- while nothing before is full, `complete` at a position means full after it
  have hat : ∀ j, j < es.length → ¬ Fills n (es.take j) →
      ((answers n none es)[j]? = some .complete ↔ Fills n (es.take (j + 1))) := by
    intro j hj hnot
    rw [← full_run, Bool.not_eq_true] at hnot
    rw [getElem?_answers n es none j hj, ← full_run, run_take_succ n es j hj, ← complete_step _ hnot]
    exact Option.some_inj
  -- up to `k`, no `complete` among the answers is the same as never full
  have hupto : ∀ m, m ≤ k → ((∀ j, j < m → (answers n none es)[j]? ≠ some .complete) ↔
      ∀ j, j < m → ¬ Fills n (es.take (j + 1))) := by
    intro m
    induction m with
    | zero => simp
    | succ m ih =>
      intro hm
      have ih := ih (by omega)
      constructor
      · intro h j hj
        have hbefore := ih.1 (fun j hj => h j (by omega))
        rcases Nat.lt_succ_iff_lt_or_eq.1 hj with hj | rfl
        · exact hbefore j hj
        · refine fun hf => h j (by omega) ((hat j (by omega) ?_).2 hf)
          cases j with
          | zero => exact not_fills_nil
          | succ j => exact hbefore j (by omega)
      · intro h j hj
        have hbefore := ih.2 (fun j hj => h j (by omega))
        rcases Nat.lt_succ_iff_lt_or_eq.1 hj with hj | rfl
        · exact hbefore j hj
        · refine fun hc => h j (by omega) ((hat j (by omega) ?_).1 hc)
          cases j with
          | zero => exact not_fills_nil
          | succ j => exact h j (by omega)
  have hnotk : (∀ j, j < k → ¬ Fills n (es.take (j + 1))) → ¬ Fills n (es.take k) := by
    intro h
    cases k with
    | zero => exact not_fills_nil
    | succ k => exact h k (by omega)
  rw [hupto k (Nat.le_refl _)]
  constructor
  · rintro ⟨hc, hn⟩
    exact ⟨(hat k hk (hnotk hn)).1 hc, hn⟩
  · rintro ⟨hf, hn⟩
    exact ⟨(hat k hk (hnotk hn)).2 hf, hn⟩

end Progress

namespace Source

variable {S : Source}

/-- **A run of packets follows the abstract run**, answer for answer. -/
theorem ingestAll_simulates {crc : Bytes → UInt32} : ∀ (ps : List Packet) {d : Disk} {a : Option Progress},
    S.Assembly crc d a → (∀ p ∈ ps, S.Sends p) →
    (Reassembler.ingestAll crc ps d).1 = (Progress.answers S.count a (ps.map Packet.delivery)).map .ok ∧
    S.Assembly crc (Reassembler.ingestAll crc ps d).2 (Progress.run S.count a (ps.map Packet.delivery))
  | [], d, a, h, _       => ⟨rfl, h⟩
  | p :: ps, d, a, h, hps => by
    obtain ⟨d', hd', ha', -⟩ := ingest_simulates h (hps p List.mem_cons_self)
    have ih := ingestAll_simulates ps ha' (fun q hq => hps q (List.mem_cons_of_mem _ hq))
    simp only [Reassembler.ingestAll, hd']
    exact ⟨congrArg _ ih.1, ih.2⟩

theorem Assembly.sidecar {crc : Bytes → UInt32} {d : Disk} {a : Progress} (h : S.Assembly crc d (some a)) :
    ∃ m, d.sidecar crc S.fileId = some m ∧ S.Core m (d.get (.incoming S.fileId)) a := by
  obtain ⟨m, hm, hs⟩ := h
  exact ⟨m, Disk.sidecar_of hm (hs.parse crc), hs.toCore⟩

theorem Assembly.marks {crc : Bytes → UInt32} {d : Disk} {a : Option Progress} (h : S.Assembly crc d a) (i : Nat) :
    d.marks crc S.fileId i = true ↔ i ∈ (a.getD Progress.empty).got := by
  cases a with
  | none => simp [Disk.marks, Disk.sidecar, h.1, Progress.empty]
  | some a =>
    obtain ⟨m, hm, hc⟩ := h.sidecar
    rw [Disk.marks, hm]
    exact hc.has i

theorem Assembly.isNamed {crc : Bytes → UInt32} {d : Disk} {a : Option Progress} (h : S.Assembly crc d a) :
    d.isNamed crc S.fileId = (a.getD Progress.empty).named := by
  cases a with
  | none => simp [Disk.isNamed, Disk.sidecar, h.1, Progress.empty]
  | some a =>
    obtain ⟨m, hm, hc⟩ := h.sidecar
    rw [Disk.isNamed, hm, Option.any_some, hc.name_isEmpty, Bool.not_not, Option.getD_some]

/-- The files on disk say which progress an assembly has made. -/
theorem Assembly.unique {crc : Bytes → UInt32} {d : Disk} {a b : Progress} (ha : S.Assembly crc d (some a))
    (hb : S.Assembly crc d (some b)) : a = b := by
  have hgot : a.got = b.got := Finset.ext (fun i => (ha.marks i).symm.trans (hb.marks i))
  have hnamed : a.named = b.named := ha.isNamed.symm.trans hb.isNamed
  cases a
  cases b
  cases hgot
  cases hnamed
  rfl

/-- The disk determines the assembly, if there is one. -/
theorem Assembly.unique_option {crc : Bytes → UInt32} {d : Disk} {a b : Option Progress} (ha : S.Assembly crc d a)
    (hb : S.Assembly crc d b) : a = b := by
  cases a with
  | none =>
    cases b with
    | none => rfl
    | some b =>
      obtain ⟨m, hm, -⟩ := hb
      rw [ha.1] at hm
      cases hm
  | some a =>
    cases b with
    | none =>
      obtain ⟨m, hm, -⟩ := ha
      rw [hb.1] at hm
      cases hm
    | some b => rw [ha.unique hb]

theorem assembly_of_empty {crc : Bytes → UInt32} {d : Disk} (h : d.holding = ∅) : S.Assembly crc d none := by
  constructor
  · show d.holding.lookup _ = none
    rw [h]; exact Finmap.lookup_empty _
  · show d.holding.lookup _ = none
    rw [h]; exact Finmap.lookup_empty _

end Source

/-- **Exact progress of an assembly.**  After any packets of one file, the chunks marked are those delivered, less the
last of several while it leads; the name is known once a manifest came; and `complete` first answers the packet with
which both are whole. -/
theorem ingest_progress_exact (crc : Bytes → UInt32) (S : Source) (d : Disk) (hd : d.holding = ∅) (ps : List Packet)
    (hps : ∀ p ∈ ps, S.Sends p) :
    (∀ i, i < S.count → ((Reassembler.ingestAll crc ps d).2.marks crc S.fileId i = true ↔
      Progress.Counts S.count (Progress.chunks (ps.map Packet.delivery)) i)) ∧
    ((Reassembler.ingestAll crc ps d).2.isNamed crc S.fileId = true ↔ Delivery.name ∈ ps.map Packet.delivery) ∧
    (∀ k, k < ps.length →
      (((Reassembler.ingestAll crc ps d).1[k]? = some (.ok .complete) ∧
        ∀ j, j < k → (Reassembler.ingestAll crc ps d).1[j]? ≠ some (.ok .complete)) ↔
      (Progress.Fills S.count ((ps.take (k + 1)).map Packet.delivery) ∧
        ∀ j, j < k → ¬ Progress.Fills S.count ((ps.take (j + 1)).map Packet.delivery)))) := by
  obtain ⟨hans, hasm⟩ := Source.ingestAll_simulates ps (@Source.assembly_of_empty S crc d hd) hps
  refine ⟨fun i _ => ?_, ?_, fun k hk => ?_⟩
  · rw [hasm.marks, Progress.mem_got_run]
  · rw [hasm.isNamed, Progress.named_run]
  · have hok : ∀ j : Nat, (Reassembler.ingestAll crc ps d).1[j]? = some (Res.ok IngestOutcome.complete) ↔
        (Progress.answers S.count none (ps.map Packet.delivery))[j]? = some IngestOutcome.complete := by
      intro j
      rw [hans, List.getElem?_map]
      cases (Progress.answers S.count none (ps.map Packet.delivery))[j]? <;> simp
    simp only [Ne, hok, List.map_take]
    exact Progress.first_complete S.count (ps.map Packet.delivery) k (by simpa using hk)

/-- The last chunk alone is turned away, and counts once it comes again after the first. -/
theorem ingest_progress_exact_last_first :
    let ps := Source.sampleA.dataPackets [1, 0, 1]
    let d := (Reassembler.ingestAll crc32 ps (Disk.fresh [] true)).2
    d.marks crc32 1 1 = true ∧
      (d.marks crc32 Source.sampleA.fileId 1 = true ↔
        Progress.Counts Source.sampleA.count (Progress.chunks (ps.map Packet.delivery)) 1) := by
  intro ps d
  exact ⟨by decide +kernel, (ingest_progress_exact crc32 Source.sampleA (Disk.fresh [] true) rfl ps
    (fun _ hp => Source.sends_dataPackets hp)).1 1 (by decide)⟩

end Parachuter
