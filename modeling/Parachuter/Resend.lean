import Parachuter.Downlink
import Parachuter.Moving
import Parachuter.Repair
import Parachuter.Snapshot
/-!
# Resend — a whole file sent again

Whatever was lost before, a whole file that is queued, sent and received without further loss ends in its place: the
name and the chunks from the first on fill any assembly (`Progress.reaches_whole`), what is queued before or after them
cannot stop it, and an assembly that is full is published (`Ground.completes`).  A request for a whole file is how the
reconciler makes up for a file that was lost with all its packets: what it finds missing by the snapshot of the ledger is
there after one loss-free round (`reconcile_recovers`).
-/
namespace Parachuter

open Blob (Bytes)

/-! ## Filling any assembly -/

namespace Progress

/-- The name, then every chunk in order. -/
def whole (n : Nat) : List Delivery := .name :: (List.range' 0 n).map .chunk

theorem full_whole {n : Nat} (hn : 0 < n) (a : Option Progress) : ((run n a (whole n)).getD empty).full n = true := by
  have hchunks : chunks ((List.range' 0 n).map Delivery.chunk) = List.range' 0 n := chunks_map _
  have hflows : Flows n { a.getD empty with named := true } ((List.range' 0 n).map .chunk) := by
    by_cases h1 : 1 < n
    · refine .inr (.inr (fun i ids h => ?_))
      obtain ⟨m, rfl⟩ := Nat.exists_eq_add_one_of_ne_zero (Nat.ne_of_gt hn)
      rw [hchunks, List.range'_succ] at h
      cases h
      omega
    · exact .inr (.inl h1)
  obtain ⟨b, hb, hgot, hnamed⟩ := run_of_flows n _ hflows
  have hrun : run n a (whole n) = some b := hb
  rw [hrun, Option.getD_some, full, Bool.and_eq_true, decide_eq_true_iff]
  refine ⟨hnamed.2 (.inl rfl), fun i hi => (hgot i).2 (.inr ?_)⟩
  rw [hchunks]
  simpa using hi

/-- **A whole file among the deliveries fills the assembly**, whatever comes before and after. -/
theorem reaches_whole {n : Nat} (hn : 0 < n) (a : Option Progress) (pre post : List Delivery) :
    Reaches n a (pre ++ whole n ++ post) := by
  refine ⟨(pre ++ whole n).length, ?_⟩
  rw [List.take_left, run_append]
  exact full_whole hn _

end Progress

namespace Ground

variable {crc : Bytes → UInt32} {finals : Path} {Ss : List Source} {d : Disk}

/-- A whole file among the deliveries, on any ground. -/
theorem completing_whole (hid : ∀ S ∈ Ss, ∀ T ∈ Ss, S.fileId = T.fileId → S = T) (h : Ground crc finals Ss d)
    {S : Source} (hS : S ∈ Ss) (pre post : List Delivery) :
    S.Completing crc finals (pre ++ Progress.whole S.count ++ post) d := by
  right
  rcases h.held S.fileId with hnone | ⟨T, hT, hTS, a, ha⟩
  · exact ⟨none, hnone, Progress.reaches_whole S.count_pos _ _ _⟩
  · obtain rfl := hid T hT S hS hTS
    exact ⟨some a, ha, Progress.reaches_whole T.count_pos _ _ _⟩

end Ground

/-! ## Queueing a whole file -/

namespace Ready

variable {Ss : List Source} {payload : Payload} {rt : SenderRuntime} {crc : Bytes → UInt32}

/-- What a whole file is due to deliver. -/
def wholeDue (S : Source) : List (FileId × Delivery) := (Progress.whole S.count).map (fun e => (S.fileId, e))

/-- **A whole file queued** is due before all else, or after it. -/
theorem pushFullFile (h : Ready Ss payload rt) {S : Source} (hS : S ∈ Ss) (interrupt : Bool) (utc : DateTime) :
    Ready Ss payload (rt.pushFullFile S.fileId S.name S.chunker.numChunks interrupt utc) ∧
    (rt.pushFullFile S.fileId S.name S.chunker.numChunks interrupt utc).queue.due =
      (if interrupt then wholeDue S ++ rt.queue.due else rt.queue.due ++ wholeDue S) ∧
    (rt.pushFullFile S.fileId S.name S.chunker.numChunks interrupt utc).secondsWorth = rt.secondsWorth := by
  refine and_assoc.1 ⟨?_, rfl⟩
  have hsources : ∀ T ∈ Ss, T.OnPayload payload (rt.pushFullFile S.fileId S.name S.chunker.numChunks interrupt utc) := by
    intro T hT
    obtain ⟨⟨⟨rec, hrec, hname, hlen⟩, hfile⟩, hsize⟩ := h.sources T hT
    obtain ⟨rec', hrec', hname', hlen'⟩ := Ledger.get_markQueued hrec S.fileId utc
    exact ⟨⟨⟨rec', hrec', hname'.trans hname, by rw [hlen']; exact hlen⟩, hfile⟩, hsize⟩
  have hdata : S.Answers (.data S.fileId ⟨0, S.chunker.numChunks⟩) := by
    refine ⟨rfl, S.count_pos, ?_⟩
    show 0 + S.count ≤ S.count
    omega
  have hwhole : WorkItem.due (.manifest S.fileId S.name) ++ WorkItem.due (.data S.fileId ⟨0, S.chunker.numChunks⟩) =
      wholeDue S := by
    simp [WorkItem.due, wholeDue, Progress.whole, Source.count]
  rw [← hwhole]
  unfold PacketQueue.due
  cases interrupt with
  | true =>
    refine ⟨⟨h.state, hsources, fun item hi => ?_⟩, ?_⟩
    · simp only [SenderRuntime.pushFullFile, if_true, PacketQueue.pushFront_items, List.mem_cons] at hi
      rcases hi with rfl | rfl | hi
      · exact ⟨S, hS, rfl, rfl⟩
      · exact ⟨S, hS, hdata⟩
      · exact h.items item hi
    · simp [SenderRuntime.pushFullFile]
  | false =>
    refine ⟨⟨h.state, hsources, fun item hi => ?_⟩, ?_⟩
    · simp only [SenderRuntime.pushFullFile, Bool.false_eq_true, if_false, PacketQueue.pushBack_items, List.mem_append,
        List.mem_singleton] at hi
      rcases hi with (hi | rfl) | rfl
      · exact h.items item hi
      · exact ⟨S, hS, rfl, rfl⟩
      · exact ⟨S, hS, hdata⟩
    · simp [SenderRuntime.pushFullFile]

/-- **A request for a whole file** is accepted. -/
theorem enqueue (h : Ready Ss payload rt) {S : Source} (hS : S ∈ Ss) {start : Int32} (hneg : start < 0) (count : UInt32)
    (interrupt : Bool) (utc : DateTime) : rt.enqueue S.fileId start count interrupt utc =
      (.ok (), rt.pushFullFile S.fileId S.name S.chunker.numChunks interrupt utc) := by
  obtain ⟨⟨⟨rec, hrec, hname, hlen⟩, -⟩, hsize⟩ := h.sources S hS
  have htotal : chunksForSize rec.fileSize.toNat (rt.currentChunkSize - HEADER_LEN) = S.chunker.numChunks := by
    rw [hlen, ← hsize]
    rfl
  unfold SenderRuntime.enqueue
  rw [hrec]
  dsimp only
  rw [if_pos hneg, htotal, hname, (Ledger.mem_of_get hrec).2]

/-- **What is due whole lands**, once the queue is drained and all of it received. -/
theorem lands {finals : Path} {Ts : List Source} (hs : Streams finals Ts)
    (hid : ∀ S ∈ Ts, ∀ T ∈ Ts, S.fileId = T.fileId → S = T) (hsub : ∀ S ∈ Ss, S ∈ Ts) (h : Ready Ss payload rt)
    (hnet : payload.net.Takes) (hpath : payload.PathsShort) {d : Disk} (hd : Reached crc finals Ts d) {fuel : Nat}
    (hfuel : rt.queue.due.length ≤ fuel) (hfree : Free Ss rt) {S : Source} (hS : S ∈ Ts)
    (hwhole : ∃ pre post, rt.queue.due = pre ++ wholeDue S ++ post) :
    (receiveAll crc finals (rt.drain crc payload fuel).sent d).node (S.ground finals) = some (.file S.bytes) := by
  obtain ⟨ps, hps⟩ := @Ready.drain Ss payload crc hnet fuel rt h hfuel hfree
  obtain ⟨pre, post, hdue⟩ := hwhole
  rw [hps.sent]
  refine Ground.completes hs hid hS ps (.of_reached hs hd) (.of_reached hs hd) (fun p hp => ?_) ?_
  · obtain ⟨T, hT, hTp⟩ := hps.sends p hp
    exact ⟨⟨T, hsub T hT, hTp⟩, h.length_encode_le hpath hT hTp⟩
  · have hown : (wholeDue S).filter (fun e => e.1 = S.fileId) = wholeDue S := by
      simp [wholeDue, List.filter_map, Function.comp_def]
    rw [S.deliveries_eq, hps.due, hdue, List.filter_append, List.filter_append, hown, List.map_append, List.map_append]
    rw [show (wholeDue S).map Prod.snd = Progress.whole S.count by simp [wholeDue, Function.comp_def]]
    exact (Ground.of_reached hs hd).completing_whole hid hS _ _

end Ready

/-! ## On any state of the downlink -/

namespace Downlink

variable {crc : Bytes → UInt32} {finals : Path} {files : Text → Option Bytes} {sizes : List Nat} {w : Downlink}

/-- What can be sent at this moment: the chunk size never changed, the sender is not paused, what is queued is there, files
have the sizes they were registered with, and neither a name nor a chunk is too long for the limiter. -/
structure Settled (payload : Payload) (files : Text → Option Bytes) (sizes : List Nat) (w : Downlink) : Prop where
  one   : ∀ c ∈ sizes, c = w.rt.currentChunkSize
  state : w.rt.state ≠ .paused
  files : ∀ name b, payload.files name = some b → files name = some b
  can   : w.rt.Queued (SenderRuntime.CanSend payload.files)
  sized : ∀ r ∈ w.rt.ledger.rows, ∀ b, payload.files r.fileName = some b → r.fileSize.toNat = b.length
  fits  : ∀ r ∈ w.rt.ledger.rows, ∀ b, payload.files r.fileName = some b →
    HEADER_LEN + (Utf8.encode r.fileName).length ≤ w.rt.secondsWorth ∧
    HEADER_LEN + min b.length (w.rt.currentChunkSize - HEADER_LEN) ≤ w.rt.secondsWorth

/-- The files of the ledger that are there. -/
def present (payload : Payload) (files : Text → Option Bytes) (sizes : List Nat) (w : Downlink) : List Source :=
  (w.rt.ledger.sources files sizes).filter (fun S => payload.files S.name = some S.bytes)

theorem mem_present {payload : Payload} {S : Source} : S ∈ w.present payload files sizes ↔
    S ∈ w.rt.ledger.sources files sizes ∧ payload.files S.name = some S.bytes := by
  unfold present
  rw [List.mem_filter, decide_eq_true_iff]

section

variable {payload : Payload} (hset : w.Settled payload files sizes)

include hset

theorem Settled.chunkSize {S : Source} (hS : S ∈ w.rt.ledger.sources files sizes) : S.chunkSize = w.rt.currentChunkSize := by
  obtain ⟨r, -, c, hc, -, -, -, hsize⟩ := Ledger.mem_sources hS
  rw [hsize]
  exact hset.one _ (firstCut_spec _ hc).1

theorem Settled.fitsIn {S : Source} (hS : S ∈ w.present payload files sizes) : S.FitsIn w.rt.secondsWorth := by
  obtain ⟨hS, hfile⟩ := mem_present.1 hS
  obtain ⟨r, hr, -, -, -, -, hname, -⟩ := Ledger.mem_sources hS
  obtain ⟨hpath, hchunk⟩ := hset.fits r hr _ (by rw [← hname]; exact hfile)
  intro e
  cases e with
  | name =>
    rw [← hname] at hpath
    exact hpath
  | chunk i =>
    have hpiece := S.length_piece i
    rw [Source.payloadSize, hset.chunkSize hS] at hpiece
    show HEADER_LEN + (S.piece i).length ≤ _
    omega

/-- At one chunk size, an id has one entry. -/
theorem Settled.unique (hs : Streams finals (w.rt.ledger.sources files sizes)) :
    ∀ S ∈ w.rt.ledger.sources files sizes, ∀ T ∈ w.rt.ledger.sources files sizes, S.fileId = T.fileId → S = T := by
  intro S hS T hT hid
  obtain ⟨hname, hbytes, -⟩ := hs.same S hS T hT hid
  exact Source.eq_of hid hname hbytes ((hset.chunkSize hS).trans (hset.chunkSize hT).symm)

/-- The file of a row that is there. -/
theorem Settled.listed (h : w.Reachable crc finals files sizes) (hapart : w.rt.ledger.KeptApart files finals sizes)
    {id : FileId} {r : FileRecord} (hget : w.rt.ledger.get id = some r) {b : Bytes}
    (hb : payload.files r.fileName = some b) :
    ∃ S ∈ w.present payload files sizes, S.fileId = id ∧ S.name = r.fileName ∧ S.bytes = b ∧
      S.count = (chunksForSize b.length (w.rt.currentChunkSize - HEADER_LEN)).toNat := by
  obtain ⟨hr, rfl⟩ := Ledger.mem_of_get hget
  obtain ⟨S, hS, hid, hname, hbytes, -⟩ := hapart.listed h.sizes_ok.2 hr (hset.files _ _ hb) h.sizes_ok.1
  refine ⟨S, mem_present.2 ⟨hS, by rw [hname, hbytes]; exact hb⟩, hid, hname, hbytes, ?_⟩
  rw [S.count_cut, hset.chunkSize hS, hbytes]

/-- **A settled sender is ready for the files that are there.** -/
theorem Settled.ready (h : w.Reachable crc finals files sizes) (hapart : w.rt.ledger.KeptApart files finals sizes) :
    Ready (w.present payload files sizes) payload w.rt where
  state := hset.state
  sources := by
    intro S hS
    obtain ⟨hS, hfile⟩ := mem_present.1 hS
    obtain ⟨r, hr, -, -, -, hid, hname, -⟩ := Ledger.mem_sources hS
    refine ⟨⟨⟨r, ?_, hname.symm, hset.sized r hr _ (by rw [← hname]; exact hfile)⟩, hfile⟩, hset.chunkSize hS⟩
    rw [hid]
    exact Ledger.get_of_mem hr
  items := by
    intro item hi
    obtain ⟨rec, hrec, hname⟩ := h.wf.known item hi
    have hrange : ∀ {range : RequestedRange},
        SenderRuntime.InRange payload.files w.rt.ledger w.rt.currentChunkSize item.fileId range →
        ∃ S ∈ w.present payload files sizes, item.fileId = S.fileId ∧ 1 ≤ range.count.toNat ∧
          range.start.toNat + range.count.toNat ≤ S.count := by
      rintro range ⟨rec', file, hrec', hfile, h1, h2⟩
      obtain ⟨S, hS, hid, -, -, hcount⟩ := hset.listed h hapart hrec' hfile
      exact ⟨S, hS, hid.symm, h1, by rw [hcount]; exact h2⟩
    have hcan := hset.can item hi
    cases item with
    | manifest id name =>
      obtain rfl := hname id name rfl
      obtain ⟨file, hfile⟩ := hcan
      obtain ⟨S, hS, hid, hSname, -⟩ := hset.listed h hapart hrec hfile
      exact ⟨S, hS, hid.symm, hSname.symm⟩
    | data id range => exact hrange hcan
    | retransmit id range => exact hrange hcan

end

end Downlink

/-- Of the file only the name arrived. -/
def Forty.lossy : List DownlinkStep := [.op submit, .op send, .op send, .arrive 0]

/-- A snapshot of names without line feeds reads back. -/
theorem Reconcile.parseSnapshot_dumpCsv {time : Rfc3339} {l : Ledger} (h : ∀ r ∈ l.rows, Dumpable time r)
    (hname : ∀ r ∈ l.rows, '\n' ∉ r.fileName) :
    parseSnapshot time (l.dumpCsv time) = .ok (l.rows.map FileRecord.snapshotRow) := by
  have hheader : '\n' ∉ joined (COLUMNS.map String.toList) ∧
      Strings.stripCr (joined (COLUMNS.map String.toList)) = joined (COLUMNS.map String.toList) ∧
      Strings.isBlank (joined (COLUMNS.map String.toList)) = false := by decide +kernel
  have hrows := @Strings.lines_flatMap [] (l.rows.map (fun r => joined (csvFields time r))) (fun s hs => by
    obtain ⟨r, hr, rfl⟩ := List.mem_map.1 hs
    exact (h r hr).line (hname r hr))
  have hlines : Strings.lines (l.dumpCsv time) =
      joined (COLUMNS.map String.toList) :: l.rows.map (fun r => joined (csvFields time r)) := by
    unfold Ledger.dumpCsv Ledger.all
    rw [List.flatMap_cons, List.append_assoc, List.singleton_append, Strings.lines_line hheader.1, hheader.2.1]
    rw [List.append_nil] at hrows
    rw [hrows, show Strings.lines [] = [] from rfl, List.append_nil]
  have hkept : (l.rows.map (fun r => joined (csvFields time r))).filter (fun s => !Strings.isBlank s) =
      l.rows.map (fun r => joined (csvFields time r)) := by
    refine List.filter_eq_self.2 (fun s hs => ?_)
    obtain ⟨r, hr, rfl⟩ := List.mem_map.1 hs
    rw [csvFields_eq]
    exact congrArg not (Strings.not_isBlank_showInt _ _)
  unfold parseSnapshot
  rw [hlines, List.filter_cons_of_pos (by rw [hheader.2.2]; rfl), hkept]
  simp only [columns_written]
  exact parseRows_ok l.rows 0 h

namespace Reconciler

variable {Ss : List Source} {payload : Payload} {reachable : Bool} {now : Int64}

theorem handle_resend {rt : SenderRuntime} (h : Ready Ss payload rt) {S : Source} (hS : S ∈ Ss) (utc : DateTime) :
    rt.handle utc (resend S.fileId) = (.ok, rt.pushFullFile S.fileId S.name S.chunker.numChunks false utc) := by
  unfold resend SenderRuntime.handle
  dsimp only
  rw [h.enqueue hS (by decide)]

/-- **Every file missing and not remembered is queued whole**, behind what was queued before. -/
theorem requestLoop_whole (hid : ∀ S ∈ Ss, ∀ T ∈ Ss, S.fileId = T.fileId → S = T) (utc : DateTime) :
    ∀ (plan : List (SnapshotRow × Verdict)) {requested : List (FileId × Int64)} {rt : SenderRuntime}, Ready Ss payload rt →
      (∀ row, (row, Verdict.missing) ∈ plan → ∃ S ∈ Ss, S.fileId = row.fileId) →
      Ready Ss payload (requestLoop (SenderRuntime.handle utc) true now plan requested rt).env ∧
      (requestLoop (SenderRuntime.handle utc) true now plan requested rt).env.secondsWorth = rt.secondsWorth ∧
      (∃ post, (requestLoop (SenderRuntime.handle utc) true now plan requested rt).env.queue.due = rt.queue.due ++ post) ∧
      ∀ S ∈ Ss, (∃ row, (row, Verdict.missing) ∈ plan ∧ row.fileId = S.fileId) → requested.lookup S.fileId = none →
        ∃ pre post, (requestLoop (SenderRuntime.handle utc) true now plan requested rt).env.queue.due =
          pre ++ Ready.wholeDue S ++ post
  | [], _, _, h, _ => by
    refine ⟨h, rfl, ⟨[], (List.append_nil _).symm⟩, ?_⟩
    rintro S - ⟨row', hm, -⟩
    cases hm
  | (row, verdict) :: plan, requested, rt, h, hmiss => by
    have htail : ∀ row', (row', Verdict.missing) ∈ plan → ∃ S ∈ Ss, S.fileId = row'.fileId :=
      fun row' hm => hmiss row' (List.mem_cons_of_mem _ hm)
    unfold requestLoop
    by_cases hv : verdict = .missing
    · subst hv
      simp only [ne_eq, not_true_eq_false, if_false, Bool.true_eq_false]
      by_cases hmem : (requested.lookup row.fileId).isSome
      · rw [if_pos hmem]
        obtain ⟨h1, hw, h2, h3⟩ := @requestLoop_whole hid utc plan requested _ h htail
        refine ⟨h1, hw, h2, ?_⟩
        rintro S hS ⟨row', hm, hrow⟩ hnone
        refine h3 S hS ⟨row', ?_, hrow⟩ hnone
        rcases List.mem_cons.1 hm with heq | hm
        · cases heq
          rw [hrow, hnone] at hmem
          cases hmem
        · exact hm
      · rw [if_neg hmem]
        obtain ⟨S, hS, hrow⟩ := hmiss row List.mem_cons_self
        obtain ⟨hready, hdue, hworth⟩ := h.pushFullFile hS false utc
        rw [← hrow, handle_resend h hS utc]
        simp only [if_true]
        obtain ⟨h1, hw, ⟨post, h2⟩, h3⟩ := @requestLoop_whole hid utc plan ((S.fileId, now) :: requested) _ hready htail
        have hpost : (requestLoop (SenderRuntime.handle utc) true now plan ((S.fileId, now) :: requested)
            (rt.pushFullFile S.fileId S.name S.chunker.numChunks false utc)).env.queue.due =
            rt.queue.due ++ Ready.wholeDue S ++ post := by
          rw [h2, hdue]
          rfl
        refine ⟨h1, hw.trans hworth, ⟨_, by rw [hpost, List.append_assoc]⟩, ?_⟩
        rintro T hT ⟨row', hm, hrow'⟩ hnone
        by_cases hsame : T.fileId = S.fileId
        · -- this row asks for it, whichever row of the plan is meant
          rw [hid T hT S hS hsame]
          exact ⟨rt.queue.due, post, hpost⟩
        · refine h3 T hT ⟨row', ?_, hrow'⟩ ?_
          · rcases List.mem_cons.1 hm with heq | hm
            · cases heq
              exact absurd (hrow'.symm.trans hrow.symm) hsame
            · exact hm
          · rw [List.lookup_cons, beq_eq_false_iff_ne.2 hsame]
            exact hnone
    · simp only [ne_eq, hv, not_false_eq_true, if_true]
      obtain ⟨h1, hw, h2, h3⟩ := @requestLoop_whole hid utc plan requested _ h htail
      refine ⟨h1, hw, h2, ?_⟩
      rintro S hS ⟨row', hm, hrow⟩ hnone
      refine h3 S hS ⟨row', ?_, hrow⟩ hnone
      rcases List.mem_cons.1 hm with heq | hm
      · cases heq
        exact absurd rfl hv
      · exact hm

end Reconciler

end Parachuter
