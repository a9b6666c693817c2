import Parachuter.Repair
/-!
# Converge — rounds of repair over a link that loses

Every round the cleaner plans, the sender takes the requests there is room for and empties its queue, and some of what it
sent arrives, in any order.  A packet asked for is one that is lacking, so whatever arrives and is not turned away brings
the number of missing pieces down (`Ground.wanting_run`), and no piece is ever lost again.  After as many rounds as
pieces were missing, each of which gets one through, nothing is left in holding.
-/
namespace Parachuter

open Blob (Bytes)

/-! ## Missing pieces -/

namespace Progress

/-- The piece is not there. -/
def Lacks (a : Progress) : Delivery → Prop
  | .chunk i => i ∉ a.got
  | .name    => a.named = false

/-- The delivery is not the last of several chunks while none is there. -/
def Takes (n : Nat) (a : Progress) (e : Delivery) : Prop := ∀ i, e = .chunk i → deferred n i a = false

/-- The number of pieces that are not there. -/
def deficit (n : Nat) (a : Progress) : Nat := (Finset.range n \ a.got).card + if a.named then 0 else 1

variable {n : Nat} {a b : Progress} {e f : Delivery}

theorem got_subset_step (h : (step n (some a) e).2 = some b) : a.got ⊆ b.got := by
  intro i hi
  have := (mem_got_step n (some a) e i).2 (.inl hi)
  rwa [h] at this

theorem named_of_step (h : (step n (some a) e).2 = some b) : b.named = (a.named || decide (e = .name)) := by
  have := named_step n (some a) e
  rwa [h] at this

theorem deficit_step_le (h : (step n (some a) e).2 = some b) : b.deficit n ≤ a.deficit n := by
  have hgot := Finset.card_le_card (Finset.sdiff_subset_sdiff (Finset.Subset.refl (Finset.range n)) (got_subset_step h))
  refine Nat.add_le_add hgot ?_
  rw [named_of_step h]
  cases a.named with
  | true => rfl
  | false => split <;> simp

/-- **A lacking piece that is taken is one less missing.** -/
theorem deficit_step_lt (h : (step n (some a) e).2 = some b) (hlack : a.Lacks e) (htake : Takes n a e)
    (hlt : ∀ i, e = .chunk i → i < n) : b.deficit n < a.deficit n := by
  cases e with
  | name =>
    have hnamed : a.named = false := hlack
    cases h
    simp [deficit, hnamed]
  | chunk i =>
    rw [step_chunk (htake i rfl)] at h
    cases h
    have hi : i ∉ a.got := hlack
    have hcard : (Finset.range n \ insert i a.got).card < (Finset.range n \ a.got).card := by
      refine Finset.card_lt_card ⟨Finset.sdiff_subset_sdiff (Finset.Subset.refl _) (Finset.subset_insert _ _), fun hsub => ?_⟩
      have hmem := hsub (Finset.mem_sdiff.2 ⟨Finset.mem_range.2 (hlt i rfl), hi⟩)
      exact (Finset.mem_sdiff.1 hmem).2 (Finset.mem_insert_self _ _)
    simpa [deficit] using hcard

/-- **Another piece lacking** is still lacking. -/
theorem lacks_step (h : (step n (some a) e).2 = some b) (hne : f ≠ e) (hlack : a.Lacks f) : b.Lacks f := by
  cases f with
  | name =>
    have hnamed : a.named = false := hlack
    show b.named = false
    rw [named_of_step h, hnamed, decide_eq_false (Ne.symm hne)]
    rfl
  | chunk j =>
    intro hj
    have := (mem_got_step n (some a) e j).1 (by rw [h]; exact hj)
    rcases this with hj | ⟨rfl, -⟩
    · exact hlack hj
    · exact hne rfl

theorem takes_step (h : (step n (some a) e).2 = some b) (htake : Takes n a f) : Takes n b f := by
  intro i hi
  have := htake i hi
  rw [Bool.eq_false_iff, Ne, deferred_iff] at this ⊢
  rintro ⟨h1, h2, h3⟩
  exact this ⟨h1, h2, fun k hk => h3 k (got_subset_step h hk)⟩

/-- Nothing is lacking of what is full. -/
theorem not_lacks_of_full (h : a.full n = true) (hlt : ∀ i, e = .chunk i → i < n) : ¬ a.Lacks e := by
  rw [full, Bool.and_eq_true, decide_eq_true_iff] at h
  cases e with
  | name =>
    intro hl
    exact absurd (h.1.symm.trans hl) (by simp)
  | chunk i => exact fun hl => hl (h.2 (Finset.mem_range.2 (hlt i rfl)))

end Progress

/-- The number of pieces a sidecar is without. -/
def Manifest.lacking (m : Manifest) : Nat :=
  ((Finset.range m.numChunks.toNat).filter (fun i => m.has i = false)).card + if m.name.isEmpty then 1 else 0

namespace Source

variable {S : Source} {crc : Bytes → UInt32} {d : Disk}

/-- The number of pieces missing of a file in holding. -/
def lacking (S : Source) (crc : Bytes → UInt32) (d : Disk) : Nat := ((d.sidecar crc S.fileId).map Manifest.lacking).getD 0

theorem lacking_none (h : S.Assembly crc d none) : S.lacking crc d = 0 := by
  unfold lacking Disk.sidecar
  rw [h.1]
  rfl

theorem lacking_some {a : Progress} (h : S.Assembly crc d (some a)) : S.lacking crc d = a.deficit S.count := by
  obtain ⟨m, hm, hc⟩ := h.sidecar
  have hset : (Finset.range m.numChunks.toNat).filter (fun i => m.has i = false) = Finset.range S.count \ a.got := by
    ext i
    rw [Finset.mem_filter, Finset.mem_sdiff, hc.count, ← hc.has, Bool.not_eq_true]
  unfold lacking Manifest.lacking Progress.deficit
  rw [hm, Option.map_some, Option.getD_some, hset, hc.name_isEmpty]
  cases a.named <;> rfl

theorem Sends.chunk_lt {pkt : Packet} (h : S.Sends pkt) {i : Nat} (hi : pkt.delivery = .chunk i) : i < S.count := by
  rcases h.cases with rfl | ⟨j, hj⟩
  · cases hi
  · have : pkt.delivery = .chunk j := by
      rcases hj.isChunk with ht | ht <;> simp [Packet.delivery, ht, hj.chunkId]
    rw [this] at hi
    cases hi
    exact hj.lt

end Source

namespace Ground

variable {crc : Bytes → UInt32} {finals : Path} {Ss : List Source} {d : Disk}

/-- Packets of pieces that are lacking, each of them once. -/
structure Wanting (crc : Bytes → UInt32) (Ss : List Source) (d : Disk) (ps : List Packet) : Prop where
  nodup : (ps.map (fun p => (p.fileId, p.delivery))).Nodup
  lacks : ∀ p ∈ ps, ∃ S ∈ Ss, S.Sends p ∧ (p.encode crc).length ≤ MAX_CHUNK_SIZE ∧
    ∃ a, S.Assembly crc d (some a) ∧ a.Lacks p.delivery

/-- The packet is not the last of several chunks while none of its file is there. -/
def Taken (crc : Bytes → UInt32) (Ss : List Source) (d : Disk) (p : Packet) : Prop :=
  ∀ S ∈ Ss, S.Sends p → ∀ a, S.Assembly crc d (some a) → Progress.Takes S.count a p.delivery

/-- The file is in holding. -/
def Holds (crc : Bytes → UInt32) (S : Source) (d : Disk) : Prop := ∃ a, S.Assembly crc d (some a)

/-- What a turn of the receive loop on a wanted packet does: nothing more is missing of any file, and what was in holding
still is or has landed. -/
structure Closer (crc : Bytes → UInt32) (finals : Path) (Ss : List Source) (d d' : Disk) : Prop where
  lacking : ∀ S ∈ Ss, S.lacking crc d' ≤ S.lacking crc d
  held    : ∀ S ∈ Ss, Holds crc S d → Holds crc S d' ∨ d'.node (S.ground finals) ≠ none
  new     : ∀ S ∈ Ss, Holds crc S d' → Holds crc S d
  kept    : ∀ S ∈ Ss, d.node (S.ground finals) ≠ none → d'.node (S.ground finals) ≠ none

theorem Closer.refl (d : Disk) : Closer crc finals Ss d d :=
  ⟨fun _ _ => Nat.le_refl _, fun _ _ => .inl, fun _ _ => id, fun _ _ => id⟩

theorem Closer.trans {d' d'' : Disk} (h : Closer crc finals Ss d d') (h' : Closer crc finals Ss d' d'') :
    Closer crc finals Ss d d'' where
  lacking S hS := Nat.le_trans (h'.lacking S hS) (h.lacking S hS)
  held S hS hh := by
    rcases h.held S hS hh with hh | hn
    · exact h'.held S hS hh
    · exact .inr (h'.kept S hS hn)
  new S hS hh := h.new S hS (h'.new S hS hh)
  kept S hS hn := h'.kept S hS (h.kept S hS hn)

/-- What a turn on a packet of the file does to its assembly `a`: it becomes `b`, or lands, being full; nothing else of the
holding directory changes. -/
structure Stepped (crc : Bytes → UInt32) (finals : Path) (S : Source) (e : Delivery) (a b : Progress) (d d' : Disk) :
    Prop where
  before : S.Assembly crc d (some a)
  step   : (Progress.step S.count (some a) e).2 = some b
  own    : (b.full S.count = true ∧ S.Assembly crc d' none ∧ d'.node (S.ground finals) ≠ none) ∨ S.Assembly crc d' (some b)
  others : ∀ f : HoldingFile, f.id ≠ S.fileId → d'.get f = d.get f
  kept   : ∀ x, d.node x ≠ none → d'.node x ≠ none

theorem receivePacket_stepped (hs : Streams finals Ss) (hid : ∀ S ∈ Ss, ∀ T ∈ Ss, S.fileId = T.fileId → S = T)
    (h : Ground crc finals Ss d) (hl : NoneWhole crc d) {S : Source} (hS : S ∈ Ss) {p : Packet} (hp : S.Sends p)
    {a : Progress} (ha : S.Assembly crc d (some a)) :
    ∃ b, Stepped crc finals S p.delivery a b d ((Parachuter.receivePacket crc finals p).exec d).2 := by
  obtain ⟨b, hb⟩ : ∃ b, (Progress.step S.count (some a) p.delivery).2 = some b := Progress.step_some ..
  have hown := h.receivePacket_own hs hid hl hS hp ha
  rw [hb, Option.getD_some] at hown
  exact ⟨b, ha, hb, hown, fun f hf => h.get_receivePacket hs hl hS hp hf, fun x hx => h.node_receivePacket hs hl hS hp hx⟩

namespace Stepped

variable {S : Source} {e : Delivery} {a b : Progress} {d' : Disk}

theorem assembly_other (h : Stepped crc finals S e a b d d') {T : Source} (hne : T.fileId ≠ S.fileId) (x : Option Progress) :
    T.Assembly crc d' x ↔ T.Assembly crc d x :=
  ⟨fun hx => hx.congr (h.others (.manifest T.fileId) hne).symm (h.others (.incoming T.fileId) hne).symm,
    fun hx => hx.congr (h.others (.manifest T.fileId) hne) (h.others (.incoming T.fileId) hne)⟩

theorem lacking_le (h : Stepped crc finals S e a b d d') : S.lacking crc d' ≤ S.lacking crc d := by
  rw [Source.lacking_some h.before]
  rcases h.own with ⟨-, hnone, -⟩ | hsome
  · rw [Source.lacking_none hnone]
    exact Nat.zero_le _
  · rw [Source.lacking_some hsome]
    exact Progress.deficit_step_le h.step

/-- A piece that was lacking and is taken is one less. -/
theorem lacking_lt (h : Stepped crc finals S e a b d d') (hlack : a.Lacks e) (htakes : Progress.Takes S.count a e)
    (hlt : ∀ i, e = .chunk i → i < S.count) : S.lacking crc d' < S.lacking crc d := by
  have hless := Progress.deficit_step_lt h.step hlack htakes hlt
  rw [Source.lacking_some h.before]
  rcases h.own with ⟨-, hnone, -⟩ | hsome
  · rw [Source.lacking_none hnone]
    omega
  · rw [Source.lacking_some hsome]
    exact hless

variable (hid : ∀ S ∈ Ss, ∀ T ∈ Ss, S.fileId = T.fileId → S = T) (hS : S ∈ Ss)

include hid hS

theorem closer (h : Stepped crc finals S e a b d d') : Closer crc finals Ss d d' where
  lacking T hT := by
    by_cases hTS : T.fileId = S.fileId
    · rw [hid T hT S hS hTS]
      exact h.lacking_le
    · unfold Source.lacking Disk.sidecar
      rw [h.others (.manifest T.fileId) hTS]
  held T hT hh := by
    by_cases hTS : T.fileId = S.fileId
    · rw [hid T hT S hS hTS]
      rcases h.own with ⟨-, -, hn⟩ | hsome
      · exact .inr hn
      · exact .inl ⟨b, hsome⟩
    · obtain ⟨c, hc⟩ := hh
      exact .inl ⟨c, (h.assembly_other hTS _).2 hc⟩
  new T hT hh := by
    by_cases hTS : T.fileId = S.fileId
    · rw [hid T hT S hS hTS]
      exact ⟨a, h.before⟩
    · obtain ⟨c, hc⟩ := hh
      exact ⟨c, (h.assembly_other hTS _).1 hc⟩
  kept _ _ := h.kept _

/-- Another piece that was lacking still is: there are none once the file is full. -/
theorem lacks (h : Stepped crc finals S e a b d d') {q : Packet} {T : Source} (hT : T ∈ Ss) (hq : T.Sends q)
    (hne : T.fileId = S.fileId → q.delivery ≠ e) {c : Progress} (hc : T.Assembly crc d (some c)) (hlack : c.Lacks q.delivery) :
    ∃ c, T.Assembly crc d' (some c) ∧ c.Lacks q.delivery := by
  by_cases hTS : T.fileId = S.fileId
  · obtain rfl := hid T hT S hS hTS
    obtain rfl := hc.unique h.before
    have hlack' := Progress.lacks_step h.step (hne rfl) hlack
    rcases h.own with ⟨hfull, -, -⟩ | hsome
    · exact absurd hlack' (Progress.not_lacks_of_full hfull (fun i hi => hq.chunk_lt hi))
    · exact ⟨b, hsome, hlack'⟩
  · exact ⟨c, (h.assembly_other hTS _).2 hc, hlack⟩

theorem taken (h : Stepped crc finals S e a b d d') {q : Packet} (htaken : Taken crc Ss d q) : Taken crc Ss d' q := by
  intro T hT hqs c hc
  by_cases hTS : T.fileId = S.fileId
  · obtain rfl := hid T hT S hS hTS
    rcases h.own with ⟨-, hnone, -⟩ | hsome
    · cases hc.unique_option hnone
    · obtain rfl := hc.unique hsome
      exact Progress.takes_step h.step (htaken T hT hqs a h.before)
  · exact htaken T hT hqs c ((h.assembly_other hTS _).1 hc)

end Stepped

/-- **One wanted packet**: its file's assembly takes a step, and lands when that fills it. -/
theorem wanting_step (hs : Streams finals Ss) (hid : ∀ S ∈ Ss, ∀ T ∈ Ss, S.fileId = T.fileId → S = T)
    (h : Ground crc finals Ss d) (hl : NoneWhole crc d) {p : Packet} {ps : List Packet} (hw : Wanting crc Ss d (p :: ps)) :
    Wanting crc Ss ((Parachuter.receivePacket crc finals p).exec d).2 ps ∧
    Closer crc finals Ss d ((Parachuter.receivePacket crc finals p).exec d).2 ∧
    (∀ q ∈ ps, Taken crc Ss d q → Taken crc Ss ((Parachuter.receivePacket crc finals p).exec d).2 q) ∧
    (Taken crc Ss d p → ∃ S ∈ Ss, S.lacking crc ((Parachuter.receivePacket crc finals p).exec d).2 < S.lacking crc d) := by
  obtain ⟨S, hS, hp, -, a, ha, hlack⟩ := hw.lacks p List.mem_cons_self
  obtain ⟨b, hb⟩ := h.receivePacket_stepped hs hid hl hS hp ha
  have hnodup := hw.nodup
  rw [List.map_cons, List.nodup_cons] at hnodup
  refine ⟨⟨hnodup.2, fun q hq => ?_⟩, hb.closer hid hS, fun q _ => hb.taken hid hS, fun htaken => ⟨S, hS, ?_⟩⟩
  · obtain ⟨T, hT, hqs, hqfit, c, hc, hqlack⟩ := hw.lacks q (List.mem_cons_of_mem _ hq)
    refine ⟨T, hT, hqs, hqfit, hb.lacks hid hS hT hqs (fun hTS he => hnodup.1 ?_) hc hqlack⟩
    refine List.mem_map.2 ⟨q, hq, ?_⟩
    rw [hqs.fileId, hTS, hp.fileId, he]
  · exact hb.lacking_lt hlack (htaken S hS hp a ha) (fun i hi => hp.chunk_lt hi)

/-- **A run of wanted packets**, and what one of them that is taken does. -/
theorem wanting_run (hs : Streams finals Ss) (hid : ∀ S ∈ Ss, ∀ T ∈ Ss, S.fileId = T.fileId → S = T) :
    ∀ (ps : List Packet) {d : Disk}, Ground crc finals Ss d → NoneWhole crc d → Wanting crc Ss d ps →
      Closer crc finals Ss d (Parachuter.receiveAll crc finals (ps.map (Packet.encode crc)) d) ∧
      ((∃ p ∈ ps, Taken crc Ss d p) → ∃ S ∈ Ss,
        S.lacking crc (Parachuter.receiveAll crc finals (ps.map (Packet.encode crc)) d) < S.lacking crc d)
  | [], d, _, _, _ => ⟨.refl d, fun ⟨_, hp, _⟩ => by cases hp⟩
  | p :: ps, d, h, hl, hw => by
    obtain ⟨S, hS, hp, hfit, -⟩ := hw.lacks p List.mem_cons_self
    obtain ⟨hw', hcloser, htaken, hless⟩ := h.wanting_step hs hid hl hw
    obtain ⟨hcloser', hless'⟩ := wanting_run hs hid ps (h.receivePacket hs hS hp) (hl.receivePacket hs h hS hp) hw'
    rw [List.map_cons, receiveAll_encode_cons crc finals hp.payload_lt hfit]
    refine ⟨hcloser.trans hcloser', fun ⟨q, hq, hqt⟩ => ?_⟩
    rcases List.mem_cons.1 hq with rfl | hq
    · obtain ⟨T, hT, hlt⟩ := hless hqt
      exact ⟨T, hT, Nat.lt_of_le_of_lt (hcloser'.lacking T hT) hlt⟩
    · obtain ⟨T, hT, hlt⟩ := hless' ⟨q, hq, htaken q hq hqt⟩
      exact ⟨T, hT, Nat.lt_of_lt_of_le hlt (hcloser.lacking T hT)⟩

end Ground

/-! ## What a round asks for -/

theorem Planned.nodup_pairs (p : Planned) : p.pairs.Nodup := by
  refine List.Nodup.map (fun _ _ h => (Prod.mk.inj h).2) ?_
  unfold due
  split
  · exact List.nodup_singleton _
  · exact List.Nodup.map (fun _ _ h => Delivery.chunk.inj h) List.nodup_range'

namespace Cleaner

variable {crc : Bytes → UInt32} {d : Disk}

theorem mem_plan {p : Planned} (h : p ∈ plan crc d) (hread : ∀ id ∈ Reassembler.inFlight d, ∃ m, d.sidecar crc id = some m) :
    p.fileId ∈ Reassembler.inFlight d ∧ ∃ m, d.sidecar crc p.fileId = some m ∧ p ∈ requestsFor p.fileId m := by
  unfold plan planning at h
  obtain ⟨id, hid, hp⟩ := List.mem_flatMap.1 h
  obtain ⟨m, hm⟩ := hread id hid
  obtain rfl := planned_fileId hp
  rw [planned_eq hm] at hp
  exact ⟨hid, m, hm, hp⟩

/-- **No piece is planned twice.** -/
theorem nodup_pairs_plan (hread : ∀ id ∈ Reassembler.inFlight d, ∃ m, d.sidecar crc id = some m) :
    ((plan crc d).flatMap Planned.pairs).Nodup := by
  rw [List.nodup_flatMap]
  refine ⟨fun p _ => p.nodup_pairs, (nodup_plan hread).pairwise_of_forall_ne (fun p hp q hq hne x hx hx' => hne ?_)⟩
  obtain ⟨hxp, hpx⟩ := Planned.mem_pairs.1 hx
  obtain ⟨hxq, hqx⟩ := Planned.mem_pairs.1 hx'
  obtain ⟨-, m, hm, hpm⟩ := mem_plan hp hread
  obtain ⟨-, m', hm', hqm⟩ := mem_plan hq hread
  rw [← hxq, hxp, hm] at hm'
  cases hm'
  rw [mem_requestsFor] at hpm hqm
  cases he : x.2 with
  | name =>
    rw [he, Planned.name_mem_due] at hpx hqx
    rcases hpm with ⟨-, hpm⟩ | ⟨r, -, hpm⟩
    · rcases hqm with ⟨-, hqm⟩ | ⟨s, -, hqm⟩
      · rw [hpm, hqm, ← hxp, hxq]
      · rw [hqm] at hqx
        cases hqx
    · rw [hpm] at hpx
      cases hpx
  | chunk i =>
    rw [he, Planned.mem_due_chunk] at hpx hqx
    rcases hpm with ⟨-, hpm⟩ | ⟨r, hr, hpm⟩
    · rw [hpm] at hpx
      cases hpx.1
    · rcases hqm with ⟨-, hqm⟩ | ⟨s, hs, hqm⟩
      · rw [hqm] at hqx
        cases hqx.1
      · rw [hpm] at hpx
        rw [hqm] at hqx
        obtain rfl := m.missingRanges_disjoint hr hs hpx.2 hqx.2
        rw [hpm, hqm, ← hxp, hxq]

end Cleaner

/-- **What is planned is lacking.** -/
theorem Ground.lacks_of_plan {crc : Bytes → UInt32} {finals : Path} {Ss : List Source} {d : Disk}
    (h : Ground crc finals Ss d) {p : Planned} (hp : p ∈ Cleaner.plan crc d) {e : Delivery} (he : e ∈ p.due) :
    ∃ S ∈ Ss, S.fileId = p.fileId ∧ ∃ a, S.Assembly crc d (some a) ∧ a.Lacks e := by
  obtain ⟨hin, m, hm, hreq⟩ := Cleaner.mem_plan hp h.readable
  obtain ⟨S, hS, hid, a, m', ha, hm', hc⟩ := h.sidecar hin
  rw [hm] at hm'
  cases hm'
  refine ⟨S, hS, hid, a, ha, ?_⟩
  rw [Cleaner.mem_requestsFor] at hreq
  cases e with
  | name =>
    rcases hreq with ⟨hname, -⟩ | ⟨r, -, hr⟩
    · have hempty := hc.name_isEmpty
      rw [hname] at hempty
      simpa [Progress.Lacks] using hempty
    · rw [Planned.name_mem_due, hr] at he
      cases he
  | chunk i =>
    rw [Planned.mem_due_chunk] at he
    rcases hreq with ⟨-, hr⟩ | ⟨r, hr, heq⟩
    · rw [hr] at he
      cases he.1
    · rw [heq] at he
      have hclear := ((m.mem_missingRanges i).1 ⟨r, hr, he.2⟩).2
      intro hi
      rw [(hc.has i).2 hi] at hclear
      cases hclear

/-! ## Rounds -/

/-- What the outside does in one round: the clock, whether the sender's status is there, the date, and which of the
datagrams arrive, in which order. -/
structure RepairRound where
  clock  : Nat → Nat
  polled : Bool
  utc    : DateTime
  arrive : List Nat

structure RepairState where
  rt    : SenderRuntime
  disk  : Disk
  dedup : DedupTable

namespace RepairState

/-- The cleaner's pass over what is in holding, asking the sender. -/
def pass (crc : Bytes → UInt32) (cfg : LiveConfig) (s : RepairState) (r : RepairRound) :
    Except Error (Cleaner.Pass SenderRuntime) :=
  Cleaner.runPass cfg (SenderRuntime.handle r.utc) (if r.polled then some s.rt.queue.snapshot else none)
    (Cleaner.plan crc s.disk) r.clock s.dedup s.rt

/-- The datagrams of a round that arrive. -/
def arrivals (crc : Bytes → UInt32) (payload : Payload) (cfg : LiveConfig) (s : RepairState) (r : RepairRound) : List Bytes :=
  match s.pass crc cfg r with
  | .error _ => []
  | .ok pass => r.arrive.filterMap (fun k => (pass.env.drain crc payload pass.env.queue.due.length).sent[k]?)

/-- One round: the pass, the sender's queue emptied, what arrives received. -/
def round (crc : Bytes → UInt32) (finals : Path) (payload : Payload) (cfg : LiveConfig) (s : RepairState) (r : RepairRound) :
    RepairState :=
  match s.pass crc cfg r with
  | .error _ => s
  | .ok pass => ⟨(pass.env.drain crc payload pass.env.queue.due.length).rt,
      receiveAll crc finals (s.arrivals crc payload cfg r) s.disk, pass.dedup⟩

/-- The sender is ready for the files, has nothing queued, and no datagram of theirs is too long for its limiter. -/
structure Idle (crc : Bytes → UInt32) (finals : Path) (Ss : List Source) (payload : Payload) (s : RepairState) : Prop where
  reached : Reached crc finals Ss s.disk
  ready   : Ready Ss payload s.rt
  queue   : s.rt.queue.items = []
  fits    : ∀ S ∈ Ss, S.FitsIn s.rt.secondsWorth

/-- While anything is in holding, a packet arrives that is not turned away. -/
def GetsThrough (crc : Bytes → UInt32) (Ss : List Source) (payload : Payload) (cfg : LiveConfig) (s : RepairState)
    (r : RepairRound) : Prop :=
  Reassembler.inFlight s.disk ≠ [] →
    ∃ b ∈ s.arrivals crc payload cfg r, ∃ p, Packet.decode crc b = .ok p ∧ Ground.Taken crc Ss s.disk p

/-- In every round of the run. -/
def RunGetsThrough (crc : Bytes → UInt32) (finals : Path) (Ss : List Source) (payload : Payload) (cfg : LiveConfig) :
    RepairState → List RepairRound → Prop
  | _, []      => True
  | s, r :: rs => s.GetsThrough crc Ss payload cfg r ∧
    RunGetsThrough crc finals Ss payload cfg (s.round crc finals payload cfg r) rs

/-- The pieces missing of all files. -/
def lacking (crc : Bytes → UInt32) (Ss : List Source) (d : Disk) : Nat := (Ss.map (fun S => S.lacking crc d)).sum

variable {crc : Bytes → UInt32} {finals : Path} {Ss : List Source} {payload : Payload} {cfg : LiveConfig}
  {s : RepairState} {r : RepairRound}

section

variable (hs : Streams finals Ss) (hid : ∀ S ∈ Ss, ∀ T ∈ Ss, S.fileId = T.fileId → S = T)
  (hnet : payload.net.Takes) (hpath : payload.PathsShort) (hcount : ∀ S ∈ Ss, S.count ≤ 2 ^ 31)
  {budget : LinkBudget} (hbudget : cfg.current.cleaner.links.lookup cfg.current.cleaner.activeLink = some budget)

include hs hid hnet hpath hcount hbudget

/-- **What a round leaves**: the packets that arrive are wanted, the sender is idle again, and of the requests remembered
those that are new are of this round. -/
theorem round_spec (h : s.Idle crc finals Ss payload) (hexp : ∀ e ∈ s.dedup.entries, ∀ j, e.2 ≤ r.clock j)
    (harrive : r.arrive.Nodup) : ∃ qs : List Packet, s.arrivals crc payload cfg r = qs.map (Packet.encode crc) ∧
      Ground.Wanting crc Ss s.disk qs ∧ (s.round crc finals payload cfg r).Idle crc finals Ss payload ∧
      (s.round crc finals payload cfg r).disk = receiveAll crc finals (qs.map (Packet.encode crc)) s.disk ∧
      (s.round crc finals payload cfg r).dedup.ttl = s.dedup.ttl ∧
      ∀ e ∈ (s.round crc finals payload cfg r).dedup.entries, e ∈ s.dedup.entries ∨ ∃ j, e.2 = r.clock j + s.dedup.ttl := by
  have hg := Ground.of_reached hs h.reached
  have hask : ∀ p ∈ Cleaner.plan crc s.disk, ∃ S ∈ Ss, S.count ≤ 2 ^ 31 ∧ S.Asked p := by
    intro p hp
    obtain ⟨S, hS, -, hasked⟩ := hg.asked hp
    exact ⟨S, hS, hcount S hS, hasked⟩
  have hstatus : (if r.polled then some s.rt.queue.snapshot else none) = none ∨
      (if r.polled then some s.rt.queue.snapshot else none) = some s.rt.queue.snapshot := by
    cases r.polled
    · exact .inl rfl
    · exact .inr rfl
  obtain ⟨pass, hpass, hready, hworth, hdue, httl, hentries⟩ :=
    hg.pass_requests h.ready h.queue hask hbudget hstatus hexp r.utc
  change s.pass crc cfg r = .ok pass at hpass
  -- the requests that were made
  let asked := (Cleaner.plan crc s.disk).take budget.maxInFlight.toNat
  have hsub : asked.Sublist (Cleaner.plan crc s.disk) := List.take_sublist _ _
  have hfree : Ready.Free Ss pass.env := Ready.free_of_fitsIn (fun S hS => by rw [hworth]; exact h.fits S hS)
  obtain ⟨ps, hps⟩ := @Ready.drain Ss payload crc hnet _ _ hready (Nat.le_refl _) hfree
  have hnodup : (ps.map (fun p => (p.fileId, p.delivery))).Nodup := by
    rw [hps.due, hdue]
    have hall := (Cleaner.nodup_pairs_plan hg.readable).sublist (hsub.flatMap Planned.pairs)
    exact ((List.reverse_perm asked).flatMap_right Planned.pairs).nodup_iff.2 hall
  let qs := r.arrive.filterMap (fun k => ps[k]?)
  have harrivals : s.arrivals crc payload cfg r = qs.map (Packet.encode crc) := by
    unfold arrivals
    rw [hpass]
    simp only [hps.sent, List.getElem?_map, qs, List.map_filterMap]
  have hmem : ∀ q ∈ qs, q ∈ ps := by
    intro q hq
    obtain ⟨k, -, hk⟩ := List.mem_filterMap.1 hq
    exact List.mem_of_getElem? hk
  have hhonest : ∀ q ∈ qs, ∃ S ∈ Ss, S.Sends q ∧ (q.encode crc).length ≤ MAX_CHUNK_SIZE := by
    intro q hq
    obtain ⟨S, hS, hSq⟩ := hps.sends q (hmem q hq)
    exact ⟨S, hS, hSq, hready.length_encode_le hpath hS hSq⟩
  have hround : s.round crc finals payload cfg r = ⟨(pass.env.drain crc payload pass.env.queue.due.length).rt,
      receiveAll crc finals (qs.map (Packet.encode crc)) s.disk, pass.dedup⟩ := by
    unfold round
    rw [hpass, harrivals]
  rw [hround]
  refine ⟨qs, harrivals, ⟨?_, fun q hq => ?_⟩, ⟨h.reached.receiveAll (fun b hb => ?_), hps.ready, hps.empty,
    fun S hS => by rw [hps.worth, hworth]; exact h.fits S hS⟩, rfl,
    httl, hentries⟩
  · have hkeys : qs.map (fun p => (p.fileId, p.delivery)) =
        r.arrive.filterMap (fun k => (ps.map (fun p => (p.fileId, p.delivery)))[k]?) := by
      simp only [qs, List.map_filterMap, List.getElem?_map]
    rw [hkeys]
    refine harrive.filterMap (fun k k' x hk hk' => ?_)
    obtain ⟨hlt, -⟩ := List.getElem?_eq_some_iff.1 hk
    exact (List.getElem?_inj hlt hnodup).1 (hk.trans hk'.symm)
  · obtain ⟨S, hS, hSq, hfit⟩ := hhonest q hq
    have hpair : (q.fileId, q.delivery) ∈ asked.reverse.flatMap Planned.pairs := by
      rw [← hdue, ← hps.due]
      exact List.mem_map_of_mem (hmem q hq)
    obtain ⟨p, hp, hpq⟩ := List.mem_flatMap.1 hpair
    obtain ⟨hpid, hpe⟩ := Planned.mem_pairs.1 hpq
    obtain ⟨T, hT, hTid, a, ha, hlack⟩ := hg.lacks_of_plan (hsub.subset (List.mem_reverse.1 hp)) hpe
    obtain rfl := hid T hT S hS (by rw [hTid, ← hpid]; exact hSq.fileId)
    exact ⟨T, hT, hSq, hfit, a, ha, hlack⟩
  · obtain ⟨q, hq, rfl⟩ := List.mem_map.1 hb
    obtain ⟨S, hS, hSq, -⟩ := hhonest q hq
    exact ⟨S, hS, q, hSq, rfl⟩

/-- **One round**: nothing more is missing, and when one of the packets that arrive is taken, less is. -/
theorem round_closer (h : s.Idle crc finals Ss payload) (hexp : ∀ e ∈ s.dedup.entries, ∀ j, e.2 ≤ r.clock j)
    (harrive : r.arrive.Nodup) : Ground.Closer crc finals Ss s.disk (s.round crc finals payload cfg r).disk ∧
      (s.GetsThrough crc Ss payload cfg r → Reassembler.inFlight s.disk ≠ [] →
        lacking crc Ss (s.round crc finals payload cfg r).disk < lacking crc Ss s.disk) := by
  obtain ⟨qs, harrivals, hw, -, hdisk, -, -⟩ := round_spec hs hid hnet hpath hcount hbudget h hexp harrive
  rw [hdisk]
  obtain ⟨hcloser, hless⟩ := Ground.wanting_run hs hid qs (.of_reached hs h.reached) (.of_reached hs h.reached) hw
  refine ⟨hcloser, fun hthrough hin => ?_⟩
  obtain ⟨b, hb, p, hdec, htaken⟩ := hthrough hin
  rw [harrivals] at hb
  obtain ⟨q, hq, rfl⟩ := List.mem_map.1 hb
  obtain ⟨S, -, hSq, -⟩ := hw.lacks q hq
  rw [decode_encode crc q hSq.payload_lt] at hdec
  cases hdec
  obtain ⟨T, hT, hlt⟩ := hless ⟨p, hq, htaken⟩
  exact List.sum_lt_sum _ _ hcloser.lacking ⟨T, hT, hlt⟩

end

/-- What is in holding is an assembly of a file listed. -/
theorem inFlight_eq_nil (hs : Streams finals Ss) {d : Disk} (hd : Reached crc finals Ss d) :
    Reassembler.inFlight d = [] ↔ ∀ S ∈ Ss, ¬ Ground.Holds crc S d := by
  rw [List.eq_nil_iff_forall_not_mem]
  constructor
  · rintro h S - ⟨a, m, hm, -⟩
    exact h S.fileId (Reassembler.mem_inFlight.2 (by rw [hm]; exact Option.some_ne_none _))
  · intro h id hin
    obtain ⟨S, hS, -, a, -, ha, -, -⟩ := (Ground.of_reached hs hd).sidecar hin
    exact h S hS ⟨a, ha⟩

/-- An assembly in holding is without something. -/
theorem lacking_pos (hs : Streams finals Ss) {d : Disk} (hd : Reached crc finals Ss d) (h : Reassembler.inFlight d ≠ []) :
    0 < lacking crc Ss d := by
  rw [Ne, inFlight_eq_nil hs hd] at h
  push Not at h
  obtain ⟨S, hS, a, ha⟩ := h
  have hpos : 0 < S.lacking crc d := by
    rw [Source.lacking_some ha, Nat.pos_iff_ne_zero]
    intro h0
    have hfull := (NoneWhole.of_reached hs hd).full_getD ha
    rw [Progress.deficit, Nat.add_eq_zero_iff, Finset.card_eq_zero, Finset.sdiff_eq_empty_iff_subset] at h0
    have hnamed : a.named = true := by
      by_contra hn
      simp [hn] at h0
    rw [Option.getD_some, Progress.full, hnamed, decide_eq_true h0.1] at hfull
    cases hfull
  exact Nat.lt_of_lt_of_le hpos (List.le_sum_of_mem (List.mem_map_of_mem hS))

/-- **A run of rounds**, against what is still missing. -/
theorem run_closer (hs : Streams finals Ss) (hid : ∀ S ∈ Ss, ∀ T ∈ Ss, S.fileId = T.fileId → S = T)
    (hnet : payload.net.Takes) (hpath : payload.PathsShort) (hcount : ∀ S ∈ Ss, S.count ≤ 2 ^ 31) {budget : LinkBudget}
    (hbudget : cfg.current.cleaner.links.lookup cfg.current.cleaner.activeLink = some budget) :
    ∀ (rounds : List RepairRound) {s : RepairState}, s.Idle crc finals Ss payload →
      (∀ r ∈ rounds, r.arrive.Nodup) → (∀ e ∈ s.dedup.entries, ∀ r ∈ rounds, ∀ j, e.2 ≤ r.clock j) →
      rounds.Pairwise (fun r r' => ∀ j j', r.clock j + s.dedup.ttl ≤ r'.clock j') →
      (rounds.foldl (round crc finals payload cfg) s).Idle crc finals Ss payload ∧
      Ground.Closer crc finals Ss s.disk (rounds.foldl (round crc finals payload cfg) s).disk ∧
      (s.RunGetsThrough crc finals Ss payload cfg rounds →
        Reassembler.inFlight (rounds.foldl (round crc finals payload cfg) s).disk ≠ [] →
        lacking crc Ss (rounds.foldl (round crc finals payload cfg) s).disk + rounds.length ≤ lacking crc Ss s.disk)
  | [], s, h, _, _, _ => ⟨h, .refl _, fun _ _ => Nat.le_refl _⟩
  | r :: rounds, s, h, harrive, hexp, hspaced => by
    rw [List.pairwise_cons] at hspaced
    have hnow : ∀ e ∈ s.dedup.entries, ∀ j, e.2 ≤ r.clock j := fun e he => hexp e he r List.mem_cons_self
    have hlist := harrive r List.mem_cons_self
    obtain ⟨-, -, -, hidle, -, httl, hentries⟩ := round_spec hs hid hnet hpath hcount hbudget h hnow hlist
    obtain ⟨hcloser, hless⟩ := round_closer hs hid hnet hpath hcount hbudget h hnow hlist
    obtain ⟨hidle', hcloser', hless'⟩ := run_closer hs hid hnet hpath hcount hbudget rounds hidle
      (fun r' hr' => harrive r' (List.mem_cons_of_mem _ hr'))
      (fun e he r' hr' j => by
        rcases hentries e he with he | ⟨i, hi⟩
        · exact hexp e he r' (List.mem_cons_of_mem _ hr') j
        · rw [hi]
          exact hspaced.1 r' hr' i j)
      (by rw [httl]; exact hspaced.2)
    rw [List.foldl_cons, List.length_cons]
    refine ⟨hidle', hcloser.trans hcloser', fun hthrough hin => ?_⟩
    have hin' : Reassembler.inFlight s.disk ≠ [] := by
      rw [Ne, inFlight_eq_nil hs hidle'.reached] at hin
      rw [Ne, inFlight_eq_nil hs h.reached]
      exact fun hnone => hin (fun S hS hh => hnone S hS (hcloser.new S hS (hcloser'.new S hS hh)))
    have hlt := hless hthrough.1 hin'
    have hle := hless' hthrough.2 hin
    omega

end RepairState

end Parachuter
