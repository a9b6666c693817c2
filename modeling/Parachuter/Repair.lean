import Parachuter.Plan
import Parachuter.Tidy
import Parachuter.Transmit
/-!
# Repair — one round of the cleaner over a loss-free link

The cleaner's plan becomes requests, the requests become queue items, the queue is drained into the receive loop.  The
requests there is room for are made (`requestLoop_take`), each puts its item at the front of the queue
(`Ready.handleAll`), and so the ranges of a file arrive in the reverse of the order they were planned in.  What arrives
fills the assembly, whatever the other files' packets in between (`Ground.completes`).  What is due is what the sidecars lack,
so the round comes to its end exactly when none of that is too long for the limiter (`repair_round_completes_iff`).
-/
namespace Parachuter

open Blob (Bytes)

/-! ## From the plan to the queue -/

/-- What a planned request asks the sender to deliver. -/
def Planned.due (p : Planned) : List Delivery :=
  match p.kind with
  | .resendName => [.name]
  | .retransmit => (List.range' p.range.start.toNat p.range.count.toNat).map .chunk

/-- What a request is due to have delivered, under its file's id. -/
def Planned.pairs (p : Planned) : List (FileId × Delivery) := p.due.map (fun e => (p.fileId, e))

theorem Planned.mem_pairs {p : Planned} {x : FileId × Delivery} : x ∈ p.pairs ↔ x.1 = p.fileId ∧ x.2 ∈ p.due := by
  unfold pairs
  rw [List.mem_map]
  constructor
  · rintro ⟨e, he, rfl⟩
    exact ⟨rfl, he⟩
  · rintro ⟨h1, h2⟩
    exact ⟨x.2, h2, by rw [← h1]⟩

/-- A request about the file that its chunks can answer. -/
structure Source.Asked (S : Source) (p : Planned) : Prop where
  fileId : p.fileId = S.fileId
  range  : p.kind = .retransmit → 1 ≤ p.range.count.toNat ∧ p.range.start.toNat + p.range.count.toNat ≤ S.count

namespace Ready

variable {Ss : List Source} {payload : Payload} {rt : SenderRuntime}

theorem pushFront (h : Ready Ss payload rt) {S : Source} (hS : S ∈ Ss) {item : WorkItem} (hi : S.Answers item) :
    Ready Ss payload { rt with queue := rt.queue.pushFront item } := by
  refine h.of_queue rfl rfl rfl (fun i hm => ?_)
  rcases List.mem_cons.1 hm with rfl | hm
  · exact ⟨S, hS, hi⟩
  · exact h.items i hm

/-- **A planned request is accepted**, and what it asks for is due first. -/
theorem handle (h : Ready Ss payload rt) {S : Source} (hS : S ∈ Ss) (hn : S.count ≤ 2 ^ 31) {p : Planned}
    (hp : S.Asked p) (utc : DateTime) : ∃ rt', rt.handle utc p.request = (.ok, rt') ∧ Ready Ss payload rt' ∧
      rt'.queue.due = p.pairs ++ rt.queue.due ∧ rt'.secondsWorth = rt.secondsWorth := by
  obtain ⟨⟨⟨rec, hrec, hname, hlen⟩, hfile⟩, hsize⟩ := h.sources S hS
  obtain ⟨hid, hrange⟩ := hp
  have hrid := (Ledger.mem_of_get hrec).2
  obtain ⟨id, range, kind⟩ := p
  dsimp only at hid hrange
  subst hid
  cases kind with
  | resendName =>
    have heq : rt.resendName S.fileId = (.ok (), { rt with queue := rt.queue.pushFront (.manifest S.fileId S.name) }) := by
      unfold SenderRuntime.resendName
      rw [hrec]
      dsimp only
      rw [hrid, hname]
    refine ⟨_, ?_, @pushFront Ss payload rt h S hS (.manifest S.fileId S.name) ⟨rfl, rfl⟩, rfl, rfl⟩
    unfold Planned.request SenderRuntime.handle
    dsimp only
    rw [heq]
  | retransmit =>
    obtain ⟨h1, h2⟩ := hrange rfl
    have htotal : chunksForSize rec.fileSize.toNat (rt.currentChunkSize - HEADER_LEN) = S.chunker.numChunks := by
      rw [hlen, ← hsize]
      rfl
    have heq := @SenderRuntime.handle_range rt S.fileId rec S.chunker.numChunks range hrec htotal h1 h2 utc
    rw [if_pos (by omega)] at heq
    refine ⟨_, heq, @pushFront Ss payload rt h S hS (.retransmit S.fileId range) ⟨rfl, h1, h2⟩, ?_, rfl⟩
    · unfold PacketQueue.due
      rw [PacketQueue.pushFront_items, List.flatMap_cons]
      simp only [WorkItem.due, Planned.pairs, Planned.due, List.map_map]
      rfl

/-- **The requests of a plan** are due in reverse. -/
theorem handleAll (utc : DateTime) : ∀ (planned : List Planned) {rt : SenderRuntime}, Ready Ss payload rt →
    (∀ p ∈ planned, ∃ S ∈ Ss, S.count ≤ 2 ^ 31 ∧ S.Asked p) →
    Ready Ss payload (planned.foldl (fun rt p => (rt.handle utc p.request).2) rt) ∧
    (planned.foldl (fun rt p => (rt.handle utc p.request).2) rt).queue.due =
      planned.reverse.flatMap Planned.pairs ++ rt.queue.due ∧
    (planned.foldl (fun rt p => (rt.handle utc p.request).2) rt).secondsWorth = rt.secondsWorth
  | [], _, h, _           => ⟨h, rfl, rfl⟩
  | p :: planned, rt, h, hp => by
    obtain ⟨S, hS, hn, hask⟩ := hp p List.mem_cons_self
    obtain ⟨rt', heq, hr, hdue, hworth⟩ := h.handle hS hn hask utc
    obtain ⟨hr', hdue', hworth'⟩ := handleAll utc planned hr (fun q hq => hp q (List.mem_cons_of_mem _ hq))
    rw [List.foldl_cons, heq]
    refine ⟨hr', ?_, hworth'.trans hworth⟩
    rw [hdue', hdue, List.reverse_cons, List.flatMap_append, List.append_assoc]
    simp

end Ready

namespace Cleaner

/-- **With nothing pending and what is remembered expired, the requests there is room for are made**, while each is
accepted. -/
theorem requestLoop_take {σ : Type} (call : σ → SenderRequest → Reply × σ)
    {status : Option (List SenderQueueSnapshot)} (budget : LinkBudget) (clock : Nat → Nat) (I : σ → Prop) :
    ∀ (planned : List Planned) (k : Nat) {sent : UInt32} {dedup : DedupTable} {env : σ}, planned.Nodup →
      (∀ e ∈ dedup.entries, e.1 ∈ planned → ∀ j, e.2 ≤ clock j) → (∀ p ∈ planned, isAlreadyPending status p = false) →
      I env → (∀ env, I env → ∀ p ∈ planned, (call env p.request).1 = .ok ∧ I (call env p.request).2) →
      (requestLoop call status budget clock k planned sent dedup env).env =
          (planned.take (budget.maxInFlight.toNat - sent.toNat)).foldl (fun e p => (call e p.request).2) env ∧
        (requestLoop call status budget clock k planned sent dedup env).dedup.ttl = dedup.ttl ∧
        ∀ e ∈ (requestLoop call status budget clock k planned sent dedup env).dedup.entries,
          e ∈ dedup.entries ∨ ∃ j, e.2 = clock j + dedup.ttl
  | [], _, _, _, _, _, _, _, _, _ => by
    rw [List.take_nil]
    exact ⟨rfl, rfl, fun _ he => .inl he⟩
  | p :: planned, k, sent, dedup, env, hnd, hold, hpend, hI, hcall => by
    rw [List.nodup_cons] at hnd
    unfold requestLoop
    by_cases hfull : budget.maxInFlight ≤ sent
    · rw [if_pos hfull, Nat.sub_eq_zero_of_le (UInt32.le_iff_toNat_le.1 hfull), List.take_zero]
      exact ⟨rfl, rfl, fun _ he => .inl he⟩
    have hlt := Nat.not_le.1 (mt UInt32.le_iff_toNat_le.2 hfull)
    have hins : dedup.tryInsert p (clock k) =
        (true, { dedup with entries := (p, clock k + dedup.ttl) :: dedup.entries.filter (fun e => e.1 ≠ p) }) := by
      unfold DedupTable.tryInsert
      rw [if_neg]
      rw [Option.any_eq_true]
      rintro ⟨exp, hexp, hlive⟩
      obtain ⟨l₁, l₂, hl, -⟩ := List.lookup_eq_some_iff.1 hexp
      have hmem : (p, exp) ∈ dedup.entries := by simp [hl]
      exact absurd (of_decide_eq_true hlive) (Nat.not_lt.2 (hold _ hmem List.mem_cons_self k))
    obtain ⟨hok, hI'⟩ := hcall env hI p List.mem_cons_self
    have hadd : (sent + 1).toNat = sent.toNat + 1 := by
      have := budget.maxInFlight.toNat_lt
      rw [UInt32.toNat_add, UInt32.toNat_one, Nat.mod_eq_of_lt (by omega)]
    rw [if_neg hfull, hpend p List.mem_cons_self]
    simp only [hins, Bool.false_eq_true, if_false, Bool.true_eq_false, hok, if_true]
    obtain ⟨henv, httl, hentries⟩ := @requestLoop_take σ call status budget clock I planned (k + 1) (sent + 1)
      { dedup with entries := (p, clock k + dedup.ttl) :: dedup.entries.filter (fun e => e.1 ≠ p) }
      (call env p.request).2 hnd.2 (fun e he hm => by
        rcases List.mem_cons.1 he with rfl | he
        · exact absurd hm hnd.1
        · exact hold e (List.mem_of_mem_filter he) (List.mem_cons_of_mem _ hm))
      (fun q hq => hpend q (List.mem_cons_of_mem _ hq)) hI' (fun e he q hq => hcall e he q (List.mem_cons_of_mem _ hq))
    refine ⟨?_, httl, fun e he => ?_⟩
    · rw [henv, hadd, show budget.maxInFlight.toNat - sent.toNat = (budget.maxInFlight.toNat - (sent.toNat + 1)) + 1 by
        omega, List.take_succ_cons, List.foldl_cons]
    · rcases hentries e he with he | he
      · rcases List.mem_cons.1 he with rfl | he
        · exact .inr ⟨k, rfl⟩
        · exact .inl (List.mem_of_mem_filter he)
      · exact .inr he

end Cleaner

/-! ## From the datagrams to the file -/

/-- The deliveries of one file among packets. -/
def Source.deliveries (S : Source) (ps : List Packet) : List Delivery :=
  (ps.filter (fun p => p.fileId = S.fileId)).map Packet.delivery

theorem Source.deliveries_eq (S : Source) (ps : List Packet) : S.deliveries ps =
    ((ps.map (fun p => (p.fileId, p.delivery))).filter (fun e => e.1 = S.fileId)).map Prod.snd := by
  rw [List.filter_map, List.map_map]
  rfl

theorem Source.deliveries_own {S : Source} {p : Packet} (h : p.fileId = S.fileId) (ps : List Packet) :
    S.deliveries (p :: ps) = p.delivery :: S.deliveries ps := by
  unfold deliveries
  rw [List.filter_cons, if_pos (decide_eq_true h), List.map_cons]

theorem Source.deliveries_other {S : Source} {p : Packet} (h : p.fileId ≠ S.fileId) (ps : List Packet) :
    S.deliveries (p :: ps) = S.deliveries ps := by
  unfold deliveries
  rw [List.filter_cons, if_neg (by simpa using h)]

/-- At some point of the deliveries the assembly is full. -/
def Progress.Reaches (n : Nat) (a : Option Progress) (es : List Delivery) : Prop :=
  ∃ k, ((run n a (es.take k)).getD empty).full n = true

/-- The file is in its place, or the deliveries to come will fill its assembly at some point. -/
def Source.Completing (S : Source) (crc : Bytes → UInt32) (finals : Path) (es : List Delivery) (d : Disk) : Prop :=
  d.node (S.ground finals) ≠ none ∨ ∃ a, S.Assembly crc d a ∧ Progress.Reaches S.count a es

namespace Ground

variable {crc : Bytes → UInt32} {finals : Path} {Ss : List Source} {d : Disk}

theorem node_published_self {d : Disk} {id : FileId} {dest : Path} {b : Bytes} :
    (d.published id dest b).node dest ≠ none := by
  show ((d.mkdirs dest.dropLast.inits).putFile dest b).node dest ≠ none
  rw [Disk.node_putFile_self]
  exact Option.some_ne_none _

theorem node_published {d : Disk} {id : FileId} {dest p : Path} {b : Bytes} (h : d.node p ≠ none) :
    (d.published id dest b).node p ≠ none := by
  by_cases he : p = dest
  · rw [he]
    exact node_published_self
  · show ((d.mkdirs dest.dropLast.inits).putFile dest b).node p ≠ none
    rw [Disk.node_putFile_ne _ _ he, Disk.node_mkdirs]
    split
    · exact Option.some_ne_none _
    · exact h

/-- **One turn of the receive loop on a packet of a file listed**: the file's assembly takes a step, and is published
when that fills it.  The third case is an assembly of another chunk count. -/
theorem receivePacket_cases (hs : Streams finals Ss) (h : Ground crc finals Ss d) (hl : NoneWhole crc d) {S : Source}
    (hS : S ∈ Ss) {pkt : Packet} (hp : S.Sends pkt) :
    (∃ a d', S.Assembly crc d a ∧ Frame S.fileId d d' ∧
      S.Assembly crc d' (Progress.step S.count a pkt.delivery).2 ∧
      ((Parachuter.receivePacket crc finals pkt).exec d).2 =
        if ((Progress.step S.count a pkt.delivery).2.getD Progress.empty).full S.count
        then d'.published S.fileId (S.ground finals) S.bytes else d') ∨
    ((∃ T ∈ Ss, T.fileId = S.fileId ∧ T.count ≠ S.count) ∧ ((Parachuter.receivePacket crc finals pkt).exec d).2 = d) := by
  rcases h.ingest_cases hs hS hp with ⟨a, d', ha, hd', ha', hf⟩ | ⟨T, hT, hid, hc, -, hd⟩
  · refine .inl ⟨a, d', ha, hf, ha', ?_⟩
    have hiff := @Progress.complete_step S.count a pkt.delivery (hl.full_getD ha)
    rw [receivePacket_ok hd']
    by_cases hfull : ((Progress.step S.count a pkt.delivery).2.getD Progress.empty).full S.count = true
    · obtain ⟨b, hb⟩ : ∃ b, (Progress.step S.count a pkt.delivery).2 = some b := by
        rw [← Option.ne_none_iff_exists']
        intro hnone
        rw [hnone] at hfull
        exact absurd hfull Bool.false_ne_true
      rw [if_pos hfull, if_pos (hiff.2 hfull)]
      rw [hb] at ha' hfull
      rw [hp.fileId, (h.of_assembly hS ha' hf).exec_finalize hs hS ha' hfull]
    · rw [if_neg hfull, if_neg (mt hiff.1 hfull)]
  · refine .inr ⟨⟨T, hT, hid, hc⟩, ?_⟩
    rw [receivePacket_ok hd, if_neg (by simp)]

theorem node_receivePacket (hs : Streams finals Ss) (h : Ground crc finals Ss d) (hl : NoneWhole crc d) {S : Source}
    (hS : S ∈ Ss) {pkt : Packet} (hp : S.Sends pkt) {p : Path} (hn : d.node p ≠ none) :
    ((Parachuter.receivePacket crc finals pkt).exec d).2.node p ≠ none := by
  rcases h.receivePacket_cases hs hl hS hp with ⟨a, d', -, hf, -, heq⟩ | ⟨-, heq⟩
  · rw [← hf.node p] at hn
    rw [heq]
    split
    · exact node_published hn
    · exact hn
  · rw [heq]
    exact hn

/-- A packet of one file leaves what is held of the others. -/
theorem get_receivePacket (hs : Streams finals Ss) (h : Ground crc finals Ss d) (hl : NoneWhole crc d) {S : Source}
    (hS : S ∈ Ss) {pkt : Packet} (hp : S.Sends pkt) {f : HoldingFile} (hf : f.id ≠ S.fileId) :
    ((Parachuter.receivePacket crc finals pkt).exec d).2.get f = d.get f := by
  rcases h.receivePacket_cases hs hl hS hp with ⟨a, d', -, hframe, -, heq⟩ | ⟨-, heq⟩
  · rw [heq]
    split
    · rw [Disk.get_published _ _ hf, hframe.get f hf]
    · exact hframe.get f hf
  · rw [heq]

/-- **A packet of a file whose id is its own**: the assembly takes a step, and is in its place and gone once it is full. -/
theorem receivePacket_own (hs : Streams finals Ss) (hid : ∀ S ∈ Ss, ∀ T ∈ Ss, S.fileId = T.fileId → S = T)
    (h : Ground crc finals Ss d) (hl : NoneWhole crc d) {S : Source} (hS : S ∈ Ss) {pkt : Packet} (hp : S.Sends pkt)
    {a : Option Progress} (ha : S.Assembly crc d a) :
    (((Progress.step S.count a pkt.delivery).2.getD Progress.empty).full S.count = true ∧
      S.Assembly crc ((Parachuter.receivePacket crc finals pkt).exec d).2 none ∧
      ((Parachuter.receivePacket crc finals pkt).exec d).2.node (S.ground finals) ≠ none) ∨
    S.Assembly crc ((Parachuter.receivePacket crc finals pkt).exec d).2 (Progress.step S.count a pkt.delivery).2 := by
  rcases h.receivePacket_cases hs hl hS hp with ⟨a', d', ha', -, hd', heq⟩ | ⟨⟨T, hT, hTid, hcount⟩, -⟩
  · obtain rfl : a' = a := ha'.unique_option ha
    rw [heq]
    split
    · rename_i hfull
      exact .inl ⟨hfull, Disk.get_published_self _ _, node_published_self⟩
    · exact .inr hd'
  · exact absurd (congrArg Source.count (hid T hT S hS hTid)) hcount

/-- **A packet of the file** takes the first of its deliveries. -/
theorem completing_own (hs : Streams finals Ss) (hid : ∀ S ∈ Ss, ∀ T ∈ Ss, S.fileId = T.fileId → S = T)
    (h : Ground crc finals Ss d) (hl : NoneWhole crc d) {S : Source} (hS : S ∈ Ss) {pkt : Packet} (hp : S.Sends pkt)
    {es : List Delivery} (hc : S.Completing crc finals (pkt.delivery :: es) d) :
    S.Completing crc finals es ((Parachuter.receivePacket crc finals pkt).exec d).2 := by
  rcases hc with hn | ⟨a, ha, k, hk⟩
  · exact .inl (h.node_receivePacket hs hl hS hp hn)
  · cases k with
    | zero =>
      -- nothing full is in holding
      rw [List.take_zero] at hk
      exact absurd hk (Bool.eq_false_iff.1 (hl.full_getD ha))
    | succ k =>
      rcases h.receivePacket_own hs hid hl hS hp ha with ⟨-, -, hn⟩ | hstep
      · exact .inl hn
      · exact .inr ⟨_, hstep, k, hk⟩

/-- **A packet of another file** takes none. -/
theorem completing_other (hs : Streams finals Ss) (h : Ground crc finals Ss d) (hl : NoneWhole crc d) {S T : Source}
    (hT : T ∈ Ss) (hne : S.fileId ≠ T.fileId) {pkt : Packet} (hp : T.Sends pkt) {es : List Delivery}
    (hc : S.Completing crc finals es d) : S.Completing crc finals es ((Parachuter.receivePacket crc finals pkt).exec d).2 := by
  rcases hc with hn | ⟨a, ha, hk⟩
  · exact .inl (h.node_receivePacket hs hl hT hp hn)
  · exact .inr ⟨a, ha.congr (h.get_receivePacket hs hl hT hp hne) (h.get_receivePacket hs hl hT hp hne), hk⟩

/-- **A file whose deliveries fill its assembly at some point ends in its place**, whatever arrives in between. -/
theorem completes (hs : Streams finals Ss) (hid : ∀ S ∈ Ss, ∀ T ∈ Ss, S.fileId = T.fileId → S = T) {S : Source}
    (hS : S ∈ Ss) : ∀ (ps : List Packet) {d : Disk}, Ground crc finals Ss d → NoneWhole crc d →
      (∀ p ∈ ps, (∃ T ∈ Ss, T.Sends p) ∧ (p.encode crc).length ≤ MAX_CHUNK_SIZE) →
      S.Completing crc finals (S.deliveries ps) d →
      (Parachuter.receiveAll crc finals (ps.map (Packet.encode crc)) d).node (S.ground finals) = some (.file S.bytes)
  | [], d, h, hl, _, hc => by
    refine ((h.delivered hs).1 S hS).resolve_left ?_
    rcases hc with hn | ⟨a, ha, k, hk⟩
    · exact hn
    · rw [show S.deliveries [] = [] from rfl, List.take_nil] at hk
      exact absurd hk (Bool.eq_false_iff.1 (hl.full_getD ha))
  | p :: ps, d, h, hl, hps, hc => by
    obtain ⟨⟨T, hT, hp⟩, hfit⟩ := hps p List.mem_cons_self
    have hc' : S.Completing crc finals (S.deliveries ps) ((Parachuter.receivePacket crc finals p).exec d).2 := by
      by_cases hST : S.fileId = T.fileId
      · obtain rfl := hid S hS T hT hST
        rw [Source.deliveries_own hp.fileId] at hc
        exact h.completing_own hs hid hl hS hp hc
      · rw [Source.deliveries_other (by rw [hp.fileId]; exact Ne.symm hST)] at hc
        exact h.completing_other hs hl hT hST hp hc
    rw [List.map_cons, receiveAll_encode_cons crc finals hp.payload_lt hfit]
    exact completes hs hid hS ps (h.receivePacket hs hT hp) (hl.receivePacket hs h hT hp)
      (fun q hq => hps q (List.mem_cons_of_mem _ hq)) hc'

theorem sidecar (h : Ground crc finals Ss d) {id : FileId} (hid : id ∈ Reassembler.inFlight d) : ∃ S ∈ Ss, S.fileId = id ∧
    ∃ a m, S.Assembly crc d (some a) ∧ d.sidecar crc id = some m ∧ S.Core m (d.get (.incoming id)) a := by
  rcases h.held id with ⟨h1, -⟩ | ⟨S, hS, rfl, a, ha⟩
  · exact absurd h1 (Reassembler.mem_inFlight.1 hid)
  · obtain ⟨m, hm, hc⟩ := ha.sidecar
    exact ⟨S, hS, rfl, a, m, ha, hm, hc⟩

/-- The sidecars can be read. -/
theorem readable (h : Ground crc finals Ss d) : ∀ id ∈ Reassembler.inFlight d, ∃ m, d.sidecar crc id = some m := by
  intro id hin
  obtain ⟨S, -, -, a, m, -, hm, -⟩ := h.sidecar hin
  exact ⟨m, hm⟩

/-- **Every planned request is one its file can answer.** -/
theorem asked (h : Ground crc finals Ss d) {p : Planned} (hp : p ∈ Cleaner.plan crc d) :
    ∃ S ∈ Ss, S.fileId ∈ Reassembler.inFlight d ∧ S.Asked p := by
  unfold Cleaner.plan Cleaner.planning at hp
  obtain ⟨id, hid, hp⟩ := List.mem_flatMap.1 hp
  obtain ⟨S, hS, rfl, a, m, -, hm, hc⟩ := h.sidecar hid
  rw [Cleaner.planned_eq hm, Cleaner.mem_requestsFor] at hp
  refine ⟨S, hS, hid, ?_⟩
  rcases hp with ⟨-, rfl⟩ | ⟨r, hr, rfl⟩
  · exact ⟨rfl, fun hk => by cases hk⟩
  · obtain ⟨h1, h2⟩ := Manifest.missingRanges_bounds hr
    rw [hc.count] at h2
    exact ⟨rfl, fun _ => ⟨h1, h2⟩⟩

end Ground

/-! ## One round -/

namespace Planned

theorem mem_due_chunk {p : Planned} {i : Nat} : Delivery.chunk i ∈ p.due ↔ p.kind = .retransmit ∧
    p.range.start.toNat ≤ i ∧ i < p.range.start.toNat + p.range.count.toNat := by
  unfold due
  split
  · rename_i hk
    simp [hk]
  · rename_i hk
    simp [hk]

theorem name_mem_due {p : Planned} : Delivery.name ∈ p.due ↔ p.kind = .resendName := by
  unfold due
  split
  · rename_i hk
    simp [hk]
  · rename_i hk
    simp [hk]

theorem due_filter (id : FileId) : ∀ planned : List Planned,
    ((planned.flatMap pairs).filter (fun e => e.1 = id)).map Prod.snd =
      (planned.filter (fun p => p.fileId = id)).flatMap due
  | []           => rfl
  | p :: planned => by
    rw [List.flatMap_cons, List.filter_append, List.map_append, due_filter id planned, List.filter_cons]
    by_cases hp : p.fileId = id
    · have hall : p.pairs.filter (fun e => e.1 = id) = p.pairs := by
        rw [List.filter_eq_self]
        intro e he
        exact decide_eq_true ((mem_pairs.1 he).1.trans hp)
      rw [hall, if_pos (decide_eq_true hp), List.flatMap_cons, pairs, List.map_map]
      exact congrArg (· ++ _) (List.map_id _)
    · have hnone : p.pairs.filter (fun e => e.1 = id) = [] := by
        rw [List.filter_eq_nil_iff]
        intro e he
        rw [(mem_pairs.1 he).1]
        simpa using hp
      rw [hnone, if_neg (by simpa using hp)]
      rfl

end Planned

/-- While nothing is there, the chunks of the whole file are requested, from the first. -/
theorem Source.Core.starts {S : Source} {m : Manifest} {data : Option Bytes} {a : Progress} (h : S.Core m data a)
    (hgot : a.got = ∅) : ∃ ids, Progress.chunks ((Cleaner.requestsFor S.fileId m).reverse.flatMap Planned.due) =
      0 :: ids := by
  have hclear : ∀ i, i < m.numChunks.toNat → m.has i = false := by
    intro i _
    rw [Bool.eq_false_iff, Ne, h.has, hgot]
    exact Finset.notMem_empty i
  have hpos : 0 < m.numChunks.toNat := by
    rw [h.count]
    exact S.count_pos
  unfold Cleaner.requestsFor
  rw [Manifest.missingRanges_of_clear hpos hclear, List.reverse_append, List.flatMap_append, Progress.chunks_append]
  show ∃ ids, Progress.chunks (Planned.due ⟨S.fileId, ⟨0, m.numChunks⟩, .retransmit⟩ ++ []) ++ _ = _
  rw [List.append_nil]
  show ∃ ids, Progress.chunks ((List.range' 0 m.numChunks.toNat).map .chunk) ++ _ = _
  rw [Progress.chunks_map]
  obtain ⟨n, hn⟩ := Nat.exists_eq_add_one_of_ne_zero (Nat.ne_of_gt hpos)
  rw [hn, List.range'_succ]
  exact ⟨_, rfl⟩

/-- The sidecar is without the piece. -/
def Manifest.Without (m : Manifest) : Delivery → Prop
  | .name    => m.name = []
  | .chunk i => i < m.numChunks.toNat ∧ m.has i = false

/-- **What is asked for a sidecar is what it lacks.** -/
theorem Cleaner.mem_due_requestsFor {id : FileId} {m : Manifest} {e : Delivery} :
    (∃ p ∈ requestsFor id m, e ∈ p.due) ↔ m.Without e := by
  cases e with
  | name =>
    constructor
    · rintro ⟨p, hp, he⟩
      rw [Planned.name_mem_due] at he
      rcases mem_requestsFor.1 hp with ⟨hname, -⟩ | ⟨r, -, rfl⟩
      · exact hname
      · cases he
    · intro hname
      exact ⟨_, mem_requestsFor.2 (.inl ⟨hname, rfl⟩), Planned.name_mem_due.2 rfl⟩
  | chunk i =>
    constructor
    · rintro ⟨p, hp, he⟩
      rw [Planned.mem_due_chunk] at he
      rcases mem_requestsFor.1 hp with ⟨-, rfl⟩ | ⟨r, hr, rfl⟩
      · cases he.1
      · exact (m.mem_missingRanges i).1 ⟨r, hr, he.2⟩
    · intro hi
      obtain ⟨r, hr, hri⟩ := (m.mem_missingRanges i).2 hi
      exact ⟨_, mem_requestsFor.2 (.inr ⟨r, hr, rfl⟩), Planned.mem_due_chunk.2 ⟨rfl, hri⟩⟩

/-- **All that is missing, sent in the reverse of the order it was planned in, fills the assembly.**  The last of several
chunks does not come first: while nothing is there, one range is planned, and it starts at chunk 0. -/
theorem Source.Core.filled {S : Source} {m : Manifest} {data : Option Bytes} {a : Progress} (h : S.Core m data a) :
    ∃ b, Progress.run S.count (some a) ((Cleaner.requestsFor S.fileId m).reverse.flatMap Planned.due) = some b ∧
      b.full S.count = true := by
  have hflows : Progress.Flows S.count a ((Cleaner.requestsFor S.fileId m).reverse.flatMap Planned.due) := by
    by_cases hgot : a.got = ∅
    · by_cases h1 : 1 < S.count
      · refine .inr (.inr (fun i ids hids => ?_))
        obtain ⟨rest, hrest⟩ := h.starts hgot
        rw [hrest] at hids
        cases hids
        omega
      · exact .inr (.inl h1)
    · exact .inl hgot
  have hdue : ∀ e, e ∈ (Cleaner.requestsFor S.fileId m).reverse.flatMap Planned.due ↔ m.Without e := by
    intro e
    rw [← @Cleaner.mem_due_requestsFor S.fileId, List.mem_flatMap]
    simp only [List.mem_reverse]
  obtain ⟨b, hb, hgot, hnamed⟩ := Progress.run_of_flows S.count _ hflows
  refine ⟨b, hb, ?_⟩
  rw [Progress.full, Bool.and_eq_true, decide_eq_true_iff]
  constructor
  · rw [hnamed, hdue]
    by_cases hn : a.named = true
    · exact .inl hn
    · refine .inr ?_
      show m.name = []
      rw [h.name, if_neg hn]
  · intro i hi
    rw [Finset.mem_range] at hi
    rw [hgot, Progress.mem_chunks, hdue]
    by_cases hai : i ∈ a.got
    · exact .inl hai
    · have hclear : m.has i = false := Bool.eq_false_iff.2 (fun ht => hai ((h.has i).1 ht))
      exact .inr ⟨by rw [h.count]; exact hi, hclear⟩

theorem Cleaner.not_pending {rt : SenderRuntime} {status : Option (List SenderQueueSnapshot)}
    (h : status = none ∨ status = some rt.queue.snapshot) (hq : rt.queue.items = []) (p : Planned) :
    isAlreadyPending status p = false := by
  rcases h with rfl | rfl
  · rfl
  · unfold PacketQueue.snapshot
    rw [hq]
    rfl

/-- The files of which there is a sidecar. -/
def inHolding (Ss : List Source) (d : Disk) : List Source := Ss.filter (fun S => S.fileId ∈ Reassembler.inFlight d)

theorem mem_inHolding {Ss : List Source} {d : Disk} {S : Source} :
    S ∈ inHolding Ss d ↔ S ∈ Ss ∧ S.fileId ∈ Reassembler.inFlight d := by
  unfold inHolding
  rw [List.mem_filter, decide_eq_true_iff]

/-- The plan where there is one file. -/
theorem Ground.plan_single {crc : Bytes → UInt32} {finals : Path} {S : Source} {d : Disk} (h : Ground crc finals [S] d)
    {m : Manifest} (hm : d.sidecar crc S.fileId = some m) : Cleaner.plan crc d = Cleaner.requestsFor S.fileId m := by
  refine Cleaner.plan_single hm (fun j hj => ?_)
  obtain ⟨T, hT, hTj, -⟩ := h.sidecar (Reassembler.mem_inFlight.2 hj)
  rw [← hTj, List.mem_singleton.1 hT]

/-- **The requests of a pass** with nothing pending and what is remembered expired: as many as the budget has room for are
made, and what they ask for is due in reverse. -/
theorem Ground.pass_requests {crc : Bytes → UInt32} {finals : Path} {Ss Ts : List Source} {d : Disk}
    (hg : Ground crc finals Ss d) {payload : Payload} {rt : SenderRuntime} (hready : Ready Ts payload rt)
    (hqueue : rt.queue.items = []) (hask : ∀ p ∈ Cleaner.plan crc d, ∃ S ∈ Ts, S.count ≤ 2 ^ 31 ∧ S.Asked p)
    {cfg : LiveConfig} {budget : LinkBudget}
    (hbudget : cfg.current.cleaner.links.lookup cfg.current.cleaner.activeLink = some budget)
    {status : Option (List SenderQueueSnapshot)} (hstatus : status = none ∨ status = some rt.queue.snapshot)
    {clock : Nat → Nat} {dedup : DedupTable} (hexp : ∀ e ∈ dedup.entries, ∀ j, e.2 ≤ clock j) (utc : DateTime) :
    ∃ pass, Cleaner.runPass cfg (SenderRuntime.handle utc) status (Cleaner.plan crc d) clock dedup rt = .ok pass ∧
      Ready Ts payload pass.env ∧ pass.env.secondsWorth = rt.secondsWorth ∧
      pass.env.queue.due = ((Cleaner.plan crc d).take budget.maxInFlight.toNat).reverse.flatMap Planned.pairs ∧
      pass.dedup.ttl = dedup.ttl ∧
      ∀ e ∈ pass.dedup.entries, e ∈ dedup.entries ∨ ∃ j, e.2 = clock j + dedup.ttl := by
  obtain ⟨henv, httl, hentries⟩ := @Cleaner.requestLoop_take SenderRuntime (SenderRuntime.handle utc) status budget clock
    (Ready Ts payload) (Cleaner.plan crc d) 0 0 dedup rt (Cleaner.nodup_plan hg.readable) (fun e he _ => hexp e he)
    (fun p _ => Cleaner.not_pending hstatus hqueue p) hready (fun rt hrt p hp => by
      obtain ⟨S, hS, hn, hasked⟩ := hask p hp
      obtain ⟨rt', heq, hrt', -⟩ := hrt.handle hS hn hasked utc
      rw [heq]
      exact ⟨rfl, hrt'⟩)
  obtain ⟨hready', hdue, hworth⟩ := hready.handleAll utc ((Cleaner.plan crc d).take budget.maxInFlight.toNat)
    (fun p hp => hask p (List.mem_of_mem_take hp))
  rw [PacketQueue.due_of_empty hqueue, List.append_nil] at hdue
  rw [UInt32.toNat_zero, Nat.sub_zero] at henv
  rw [← henv] at hready' hdue hworth
  unfold Cleaner.runPass
  rw [hbudget]
  exact ⟨_, rfl, hready', hworth, hdue, httl, fun e he => hentries e (List.mem_of_mem_filter he)⟩

section

variable {crc : Bytes → UInt32} {finals : Path} {Ss : List Source} {d : Disk} (hg : Ground crc finals Ss d)
  {payload : Payload} {rt : SenderRuntime} (hstate : rt.state ≠ .paused) (hqueue : rt.queue.items = [])
  (hfiles : ∀ S ∈ Ss, S.fileId ∈ Reassembler.inFlight d → S.count ≤ 2 ^ 31 ∧ S.OnPayload payload rt)

include hg hstate hqueue hfiles

/-- **The requests of a round** are all made: what the plan asks for is due, in reverse. -/
theorem round_requests {cfg : LiveConfig} {budget : LinkBudget}
    (hbudget : cfg.current.cleaner.links.lookup cfg.current.cleaner.activeLink = some budget)
    (hroom : (Cleaner.plan crc d).length ≤ budget.maxInFlight.toNat)
    {status : Option (List SenderQueueSnapshot)} (hstatus : status = none ∨ status = some rt.queue.snapshot)
    (clock : Nat → Nat) (ttl : Nat) (utc : DateTime) :
    ∃ pass, Cleaner.runPass cfg (SenderRuntime.handle utc) status (Cleaner.plan crc d) clock (.new ttl) rt = .ok pass ∧
      Ready (inHolding Ss d) payload pass.env ∧ pass.env.secondsWorth = rt.secondsWorth ∧
      pass.env.queue.due = (Cleaner.plan crc d).reverse.flatMap Planned.pairs := by
  have hready : Ready (inHolding Ss d) payload rt := by
    refine ⟨hstate, fun S hS => ?_, fun item hi => ?_⟩
    · obtain ⟨hS, hin⟩ := mem_inHolding.1 hS
      exact (hfiles S hS hin).2
    · rw [hqueue] at hi
      cases hi
  have hask : ∀ p ∈ Cleaner.plan crc d, ∃ S ∈ inHolding Ss d, S.count ≤ 2 ^ 31 ∧ S.Asked p := by
    intro p hp
    obtain ⟨S, hS, hin, hasked⟩ := hg.asked hp
    exact ⟨S, mem_inHolding.2 ⟨hS, hin⟩, (hfiles S hS hin).1, hasked⟩
  have hexp : ∀ e ∈ (DedupTable.new ttl).entries, ∀ j, e.2 ≤ clock j := fun e he => by cases he
  obtain ⟨pass, hpass, hready', hworth, hdue, -⟩ := hg.pass_requests hready hqueue hask hbudget hstatus hexp utc
  rw [List.take_of_length_le hroom] at hdue
  exact ⟨pass, hpass, hready', hworth, hdue⟩

end

/-- What the round of a plan is due to send, file by file. -/
theorem Ground.free_iff {crc : Bytes → UInt32} {finals : Path} {Ss : List Source} {d : Disk} (hg : Ground crc finals Ss d)
    {rt : SenderRuntime}
    (hdue : rt.queue.due = (Cleaner.plan crc d).reverse.flatMap Planned.pairs) :
    Ready.Free (inHolding Ss d) rt ↔ ∀ S ∈ Ss, ∀ m, d.sidecar crc S.fileId = some m → ∀ e, m.Without e →
      S.datagramLen e ≤ rt.secondsWorth := by
  have hmem : ∀ (id : FileId) (e : Delivery), (id, e) ∈ rt.queue.due ↔
      ∃ m, d.sidecar crc id = some m ∧ m.Without e := by
    intro id e
    rw [hdue, List.mem_flatMap]
    constructor
    · rintro ⟨p, hp, he⟩
      obtain ⟨hid, he⟩ := Planned.mem_pairs.1 he
      obtain rfl : id = p.fileId := hid
      rw [List.mem_reverse] at hp
      obtain ⟨S, -, hin, hasked⟩ := hg.asked hp
      rw [← hasked.fileId] at hin
      obtain ⟨m, hm⟩ := hg.readable p.fileId hin
      refine ⟨m, hm, (@Cleaner.mem_due_requestsFor p.fileId m e).1 ⟨p, ?_, he⟩⟩
      rw [← Cleaner.filter_plan hm]
      exact List.mem_filter.2 ⟨hp, decide_eq_true rfl⟩
    · rintro ⟨m, hm, he⟩
      obtain ⟨p, hp, hpe⟩ := (@Cleaner.mem_due_requestsFor id m e).2 he
      rw [← Cleaner.filter_plan hm, List.mem_filter] at hp
      exact ⟨p, List.mem_reverse.2 hp.1, Planned.mem_pairs.2 ⟨(of_decide_eq_true hp.2).symm, hpe⟩⟩
  constructor
  · intro h S hS m hm e he
    obtain ⟨buf, hbuf, -⟩ := Disk.sidecar_some hm
    have hin : S.fileId ∈ Reassembler.inFlight d := Reassembler.mem_inFlight.2 (by rw [hbuf]; exact Option.some_ne_none buf)
    exact h S (mem_inHolding.2 ⟨hS, hin⟩) e ((hmem _ _).2 ⟨m, hm, he⟩)
  · intro h S hS e he
    obtain ⟨m, hm, hlack⟩ := (hmem _ _).1 he
    exact h S (mem_inHolding.1 hS).1 m hm e hlack

/-- **One loss-free round repairs every file in holding exactly when** no piece that one of them lacks makes a datagram longer
than one second's worth of traffic.  The cleaner plans on the disk it finds, the sender takes the requests and empties its
queue, and the receive loop takes what was sent; with a longer datagram due, the sender never comes to the end of its queue. -/
theorem repair_round_completes_iff (crc : Bytes → UInt32) (finals : Path) (Ss : List Source)
    (hid : ∀ S ∈ Ss, ∀ T ∈ Ss, S.fileId = T.fileId → S = T)
    (hapart : ∀ S ∈ Ss, ∀ T ∈ Ss, S.fileId ≠ T.fileId → ¬ S.ground finals <+: T.ground finals)
    (d : Disk) (hd : Reached crc finals Ss d)
    (payload : Payload) (hnet : payload.net.Takes) (hpath : payload.PathsShort)
    (rt : SenderRuntime) (hstate : rt.state ≠ .paused) (hqueue : rt.queue.items = [])
    (hfiles : ∀ S ∈ Ss, S.fileId ∈ Reassembler.inFlight d → S.count ≤ 2 ^ 31 ∧ S.OnPayload payload rt)
    (cfg : LiveConfig) (budget : LinkBudget)
    (hbudget : cfg.current.cleaner.links.lookup cfg.current.cleaner.activeLink = some budget)
    (hroom : (Cleaner.plan crc d).length ≤ budget.maxInFlight.toNat)
    (status : Option (List SenderQueueSnapshot)) (hstatus : status = none ∨ status = some rt.queue.snapshot)
    (clock : Nat → Nat) (ttl : Nat) (utc : DateTime) :
    (∃ pass, Cleaner.runPass cfg (SenderRuntime.handle utc) status (Cleaner.plan crc d) clock (.new ttl) rt = .ok pass ∧
      ∀ fuel, pass.env.queue.due.length ≤ fuel → (pass.env.drain crc payload fuel).result = .ok () ∧
        (pass.env.drain crc payload fuel).rt.queue.items = [] ∧
        ∀ S ∈ Ss, S.fileId ∈ Reassembler.inFlight d →
          (receiveAll crc finals (pass.env.drain crc payload fuel).sent d).node (S.ground finals) = some (.file S.bytes)) ↔
      ∀ S ∈ Ss, ∀ m, d.sidecar crc S.fileId = some m → ∀ e, m.Without e → S.datagramLen e ≤ rt.secondsWorth := by
  have hs := Streams.of_distinct hid hapart
  have hg := Ground.of_reached hs hd
  have hl := NoneWhole.of_reached hs hd
  obtain ⟨pass, hpass, hready, hworth, hdue⟩ := round_requests hg hstate hqueue hfiles hbudget hroom hstatus clock ttl utc
  have hfree := hg.free_iff hdue
  rw [hworth] at hfree
  rw [← hfree]
  constructor
  · rintro ⟨pass', hpass', hdone⟩
    rw [hpass] at hpass'
    cases hpass'
    by_contra hlong
    have hblocked := @Ready.drain_blocked (inHolding Ss d) payload crc hnet _ _ hready (Nat.le_refl _) hlong
    rw [(hdone _ (Nat.le_refl _)).1] at hblocked
    cases hblocked
  · intro hfit
    refine ⟨pass, hpass, fun fuel hfuel => ?_⟩
    obtain ⟨ps, hps⟩ := @Ready.drain (inHolding Ss d) payload crc hnet fuel _ hready hfuel hfit
    refine ⟨hps.result, hps.empty, fun S hS hin => ?_⟩
    rw [hps.sent]
    refine Ground.completes hs hid hS ps hg hl (fun p hp => ?_) ?_
    · obtain ⟨T, hT, hTp⟩ := hps.sends p hp
      exact ⟨⟨T, (mem_inHolding.1 hT).1, hTp⟩, hready.length_encode_le hpath hT hTp⟩
    · obtain ⟨T, hT, hTS, a, m, ha, hm, hc⟩ := hg.sidecar hin
      obtain rfl := hid T hT S hS hTS
      obtain ⟨b, hrun, hfull⟩ := hc.filled
      have hdel : T.deliveries ps = (Cleaner.requestsFor T.fileId m).reverse.flatMap Planned.due := by
        rw [T.deliveries_eq, hps.due, hdue, Planned.due_filter, List.filter_reverse, Cleaner.filter_plan hm]
      rw [← hdel] at hrun
      refine .inr ⟨some a, ha, (T.deliveries ps).length, ?_⟩
      rw [List.take_length, hrun]
      exact hfull

set_option maxRecDepth 4096 in
/-- Of two chunks the second came first and was turned away, then the first: the second and the name are requested. -/
theorem repair_round_completes_half_arrived :
    let S := Forty.source 64 (by decide)
    let d := receiveAll crc32 [] ((S.dataPackets [1, 0]).map (Packet.encode crc32)) (Disk.fresh [] true)
    let rt := SenderOp.run crc32 Forty.start [Forty.setChunkSize 64, Forty.submit, .flush]
    d.node (S.ground []) = none ∧ ∃ pass, Cleaner.runPass .default (SenderRuntime.handle 0) (some rt.queue.snapshot)
      (Cleaner.plan crc32 d) (fun k => k) (.new 300) rt = .ok pass ∧
      (receiveAll crc32 [] (pass.env.drain crc32 (.ideal Forty.files) pass.env.queue.due.length).sent d).node (S.ground []) =
        some (.file S.bytes) := by
  intro S d rt
  have hd : Reached crc32 [] [S] d := by
    refine ⟨true, _, fun b hb => ?_, rfl⟩
    obtain ⟨p, hp, rfl⟩ := List.mem_map.1 hb
    exact ⟨S, List.mem_singleton_self S, p, Source.sends_dataPackets hp, rfl⟩
  have hg := Ground.of_reached (S.streams_single []) hd
  have hin : S.fileId ∈ Reassembler.inFlight d := Reassembler.mem_inFlight.2 (by decide +kernel)
  have hreqs : (d.sidecar crc32 S.fileId).map (fun m => (Cleaner.requestsFor S.fileId m).length) = some 2 := by
    decide +kernel
  obtain ⟨m, hm, hlen⟩ := Option.map_eq_some_iff.1 hreqs
  have hroom : (Cleaner.plan crc32 d).length ≤ 8 := by
    rw [hg.plan_single hm, hlen]
    decide
  have hfits : S.FitsIn rt.secondsWorth := Source.fitsIn_of_le (by decide +kernel) (by decide +kernel)
  obtain ⟨pass, hpass, hdone⟩ := (repair_round_completes_iff crc32 [] [S]
    (fun A hA B hB _ => (List.mem_singleton.1 hA).trans (List.mem_singleton.1 hB).symm) (S.streams_single []).apart d hd
    (.ideal Forty.files) (fun _ _ _ => rfl) Forty.pathsShort rt (by decide +kernel) (by decide +kernel) (fun T hT _ => by
      rw [List.mem_singleton.1 hT]
      exact ⟨by decide, ⟨⟨⟨_, rfl, rfl, by decide +kernel⟩, rfl⟩, by decide +kernel⟩⟩)
    .default ⟨8, 500⟩ (by decide) hroom _ (.inr rfl) (fun k => k) 300 0).2
    (fun T hT _ _ e _ => by rw [List.mem_singleton.1 hT]; exact hfits e)
  exact ⟨by decide +kernel, pass, hpass, (hdone _ (Nat.le_refl _)).2.2 S (List.mem_singleton_self S) hin⟩

/-! ## Four thousand bytes over the slowest of the default links -/

namespace Wide

def files (name : Text) : Option Bytes := if name = "/a".toList then some (List.replicate 4000 0) else none

/-- The file, at the default chunk size: one chunk. -/
def source : Source where
  fileId := 1
  name := "/a".toList
  bytes := List.replicate 4000 0
  chunkSize := DEFAULT_CHUNK_SIZE
  sizeOk := by decide
  nameOk := Forty.nameOk
  nameFits := Forty.nameFits
  countFits := by
    rw [List.length_replicate]
    decide

/-- The link is changed to that of 30 kbit/s, the file submitted and the queue flushed. -/
def ops : List SenderOp :=
  [.applyOverride ⟨some "tdrss", none, none, none, none⟩, .submit (fun _ => .ok ⟨true, 4000, 0⟩) none "/a".toList false 0, .flush]

def sender : SenderRuntime := SenderOp.run crc32 Forty.start ops

/-- The ground, once the name has come. -/
def disk : Disk := receiveAll crc32 [] [(source.chunker.manifestPacket source.name).encode crc32] (Disk.fresh [] true)

end Wide

/-- **A chunk of 4032 bytes at 30 kbit/s**: the round requests it, the sender takes the request and never comes to the end of
its queue. -/
theorem repair_round_blocked :
    Reached crc32 [] [Wide.source] Wide.disk ∧ Wide.source.count = 1 ∧
    Wide.source.OnPayload (.ideal Wide.files) Wide.sender ∧ Wide.sender.state ≠ .paused ∧ Wide.sender.queue.items = [] ∧
    Wide.sender.secondsWorth = 3750 ∧ (Cleaner.plan crc32 Wide.disk).length ≤ 8 ∧
    ∃ pass, Cleaner.runPass .default (SenderRuntime.handle 0) none (Cleaner.plan crc32 Wide.disk) (fun k => k) (.new 300)
        Wide.sender = .ok pass ∧ pass.env.queue.due = [(1, .chunk 0)] ∧
      ∀ fuel, 1 ≤ fuel → (pass.env.drain crc32 (.ideal Wide.files) fuel).result = .error .blocked := by
  have hd : Reached crc32 [] [Wide.source] Wide.disk := by
    refine ⟨true, _, fun b hb => ?_, rfl⟩
    rw [List.mem_singleton.1 hb]
    exact ⟨Wide.source, List.mem_singleton_self _, _, .manifest, rfl⟩
  have hg := Ground.of_reached (Wide.source.streams_single []) hd
  have hon : Wide.source.OnPayload (.ideal Wide.files) Wide.sender :=
    ⟨⟨⟨_, rfl, rfl, by decide +kernel⟩, rfl⟩, by decide +kernel⟩
  have hworth : Wide.sender.secondsWorth = 3750 := by decide +kernel
  have hreqs : (Wide.disk.sidecar crc32 Wide.source.fileId).map (Cleaner.requestsFor Wide.source.fileId) =
      some [⟨1, ⟨0, 1⟩, .retransmit⟩] := by decide +kernel
  obtain ⟨m, hm, hplan⟩ := Option.map_eq_some_iff.1 hreqs
  rw [← hg.plan_single hm] at hplan
  have hroom : (Cleaner.plan crc32 Wide.disk).length ≤ 8 := by
    rw [hplan]
    decide
  have hcount : Wide.source.count = 1 := by decide +kernel
  have hlen : Wide.source.datagramLen (.chunk 0) = 4032 := by decide +kernel
  obtain ⟨pass, hpass, hready, hworth', hdue⟩ := @round_requests crc32 [] [Wide.source] Wide.disk hg (.ideal Wide.files)
    Wide.sender (by decide +kernel) (by decide +kernel) (fun T hT _ => by
      rw [List.mem_singleton.1 hT]
      exact ⟨by rw [hcount]; decide, hon⟩)
    .default ⟨8, 500⟩ (by decide) hroom none (.inl rfl) (fun k => k) 300 0
  rw [hplan] at hdue
  have hdue' : pass.env.queue.due = [(1, .chunk 0)] := hdue
  have hlong : ¬ Ready.Free (inHolding [Wide.source] Wide.disk) pass.env := by
    intro hfree
    have hin : Wide.source.fileId ∈ Reassembler.inFlight Wide.disk := Reassembler.mem_inFlight.2 (by decide +kernel)
    have hle := hfree Wide.source (mem_inHolding.2 ⟨List.mem_singleton_self _, hin⟩) (.chunk 0) (by
      rw [hdue']
      exact List.mem_singleton_self _)
    rw [hlen, hworth', hworth] at hle
    exact absurd hle (by decide)
  refine ⟨hd, hcount, hon, by decide +kernel, by decide +kernel, hworth, hroom, pass, hpass, hdue', fun fuel hfuel => ?_⟩
  exact Ready.drain_blocked (fun _ _ _ => rfl) fuel hready (by rw [hdue']; exact hfuel) hlong

end Parachuter
