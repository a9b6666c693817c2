import Parachuter.Ground
/-!
# Crash — finalising under failures

`finalize` moves the data and then drops the sidecar, each with its own call.  `mayStrike` lists the failures it
survives: any call of it may fail or kill the process, except that a copy is not cut in the middle and the removal of
the sidecar is not struck.  Under these, `wp_finalize` carries the ground's invariant through every cut point, and
`ground_run` through every run that mixes honest packets, finalise calls, failures and restarts.
-/
namespace Parachuter

open Blob (Bytes Holds)
open Calls (Res Strike)

/-- The strikes that leave nothing half done: a copy stops before it begins or after its last byte, and the sidecar's
removal is not struck. -/
def mayStrike : FsCall → Strike → Disk → Prop
  | .copy f _, s, d             => s.cut = 0 ∨ (d.get f).all (·.length < s.cut) = true
  | .remove (.manifest _), _, _ => False
  | _, _, _                     => True

instance : (c : FsCall) → (s : Strike) → (d : Disk) → Decidable (mayStrike c s d)
  | .copy f _, s, d                => inferInstanceAs (Decidable (s.cut = 0 ∨ (d.get f).all (·.length < s.cut) = true))
  | .remove (.manifest _), _, _    => .isFalse id
  | .remove (.incoming _), _, _    => .isTrue trivial
  | .remove (.manifestTmp _), _, _ => .isTrue trivial
  | .read _, _, _                  => .isTrue trivial
  | .create _, _, _                => .isTrue trivial
  | .openData _, _, _              => .isTrue trivial
  | .length _, _, _                => .isTrue trivial
  | .setLen _ _, _, _              => .isTrue trivial
  | .writeAt _ _ _, _, _           => .isTrue trivial
  | .sync _, _, _                  => .isTrue trivial
  | .renameHeld _ _, _, _          => .isTrue trivial
  | .createDirAll _, _, _          => .isTrue trivial
  | .rename _ _, _, _              => .isTrue trivial

namespace Reassembler

variable {crc : Bytes → UInt32} {finals : Path} {d : Disk} {id : FileId} {may : FsCall → Strike → Disk → Prop}
  {Q : Res Error Path → Disk → Prop}

theorem wp_finalize_none (h : d.get (.manifest id) = none)
    (hfail : ∀ n, may (.read (.manifest id)) (.fail n) d → Q (.err (.io .other)) d)
    (hcrash : ∀ n, may (.read (.manifest id)) (.crash n) d → Q .crash d)
    (hQ : Q (.err (.notFound (.held (.manifest id)))) d) : (finalize crc finals id).wp may Q d := by
  unfold finalize
  rw [Calls.wp_bind]
  exact Manifest.wp_open_none h hfail hcrash hQ

/-- The rule of `finalize` on a sidecar that can be read: what it says decides whether the assembly is published. -/
theorem wp_finalize_some {buf : Bytes} {m : Manifest} {c : Bool} (h : d.get (.manifest id) = some buf)
    (hp : Manifest.parse crc buf = .ok m) (hc : m.isComplete = some c)
    (hfail : ∀ n, may (.read (.manifest id)) (.fail n) d → Q (.err (.io .other)) d)
    (hcrash : ∀ n, may (.read (.manifest id)) (.crash n) d → Q .crash d)
    (hpart : ¬ (c = true ∧ m.name ≠ []) → ∀ e, Q (.err e) d)
    (hfull : c = true → m.name ≠ [] → (publish id (groundPath finals m.name)).wp may Q d) :
    (finalize crc finals id).wp may Q d := by
  unfold finalize
  rw [Calls.wp_bind]
  refine Manifest.wp_open_some h hp hfail hcrash ?_
  unfold Res.thenWp
  dsimp only
  rw [hc]
  cases c with
  | false => exact hpart (fun h => Bool.false_ne_true h.1) _
  | true =>
    cases hn : m.name with
    | nil => exact hpart (fun h => h.2 hn) _
    | cons x xs =>
      rw [hn] at hfull
      exact hfull rfl (List.cons_ne_nil x xs)

end Reassembler

namespace Ground

variable {crc : Bytes → UInt32} {finals : Path} {Ss : List Source} {d d' : Disk}

theorem of_tree (h : Ground crc finals Ss d) (ht : Tree (fun S b => b = S.bytes) finals Ss d') (hg : ∀ f, d'.get f = d.get f) :
    Ground crc finals Ss d' := by
  refine ⟨ht, fun id => ?_⟩
  rcases h.held id with ⟨h1, h2⟩ | ⟨S, hS, rfl, a, ha⟩
  · exact .inl ⟨(hg _).trans h1, (hg _).trans h2⟩
  · exact .inr ⟨S, hS, rfl, a, ha.congr (hg _) (hg _)⟩

theorem putFile (h : Ground crc finals Ss d) {S : Source} (hS : S ∈ Ss) :
    Ground crc finals Ss (d.putFile (S.ground finals) S.bytes) :=
  h.of_tree (h.toTree.putFile hS rfl) (fun _ => rfl)

/-- What is left to do once the data has moved, or the invariant again. -/
def Moved (crc : Bytes → UInt32) (finals : Path) (Ss : List Source) (S : Source) (d : Disk) : Res Error Unit → Disk → Prop
  | .ok _, d' => d' = (d.putFile (S.ground finals) S.bytes).del (.incoming S.fileId)
  | _, d'     => Ground crc finals Ss d'

/-- **Copying and removing**, under strikes. -/
theorem wp_copyInto (h : Ground crc finals Ss d) {S : Source} (hS : S ∈ Ss)
    (hdata : d.get (.incoming S.fileId) = some S.bytes) (hc : d.mayCreate (S.ground finals) = true) :
    (do io (.copy (.incoming S.fileId) (S.ground finals)); io (.remove (.incoming S.fileId)) : Fs Unit).wp mayStrike
      (Moved crc finals Ss S d) d := by
  have hsem : FsCall.sem (.copy (.incoming S.fileId) (S.ground finals)) d =
      (.ok (), d.putFile (S.ground finals) S.bytes) := by
    simp only [FsCall.sem, hdata, hc, if_true]
  -- a strike leaves no copy at all or a whole one
  have htorn : ∀ s : Strike, mayStrike (.copy (.incoming S.fileId) (S.ground finals)) s d →
      Ground crc finals Ss (FsCall.torn (.copy (.incoming S.fileId) (S.ground finals)) s.cut d) := by
    intro s hs
    rcases hs with hs | hs
    · rw [hs]; exact h
    · have hlt : S.bytes.length < s.cut := by simpa [hdata] using hs
      obtain ⟨n, hn⟩ := Nat.exists_eq_add_one_of_ne_zero (Nat.ne_of_gt (Nat.zero_lt_of_lt hlt))
      rw [hn] at hlt ⊢
      simp only [FsCall.torn, hdata, hc, if_true, List.take_of_length_le (Nat.le_of_lt_succ hlt)]
      exact h.putFile hS
  rw [Calls.wp_bind]
  refine wp_io ?_ (fun n hn => htorn (.fail n) hn) (fun n hn => htorn (.crash n) hn)
  rw [hsem]
  show (io (.remove (.incoming S.fileId))).wp mayStrike _ (d.putFile (S.ground finals) S.bytes)
  have hrem : FsCall.sem (.remove (.incoming S.fileId)) (d.putFile (S.ground finals) S.bytes) =
      (.ok (), (d.putFile (S.ground finals) S.bytes).del (.incoming S.fileId)) := by
    simp only [FsCall.sem, Disk.get_putFile, hdata]
  refine wp_io ?_ (fun n _ => h.putFile hS) (fun n _ => h.putFile hS)
  rw [hrem]
  exact rfl

/-- **Moving the data**, under strikes: a rename that fails for whatever reason falls back to the copy. -/
theorem wp_moveInto (h : Ground crc finals Ss d) {S : Source} (hS : S ∈ Ss)
    (hdata : d.get (.incoming S.fileId) = some S.bytes) (hc : d.mayCreate (S.ground finals) = true) :
    (Reassembler.moveInto S.fileId (S.ground finals)).wp mayStrike (Moved crc finals Ss S d) d := by
  have hcopy := h.wp_copyInto hS hdata hc
  unfold Reassembler.moveInto
  rw [Calls.wp_bind, Calls.wp_attempt]
  refine wp_io ?_ (fun n _ => hcopy) (fun n _ => h)
  cases hs : d.sameFs with
  | true =>
    simp only [FsCall.sem, hdata, hs, hc, Bool.and_self, if_true]
    exact rfl
  | false =>
    simp only [FsCall.sem, hdata, hs, Bool.false_and, Bool.false_eq_true, if_false]
    exact hcopy

/-- **Publishing a full assembly**, under strikes. -/
theorem wp_publish (hs : Streams finals Ss) (h : Ground crc finals Ss d) {S : Source} (hS : S ∈ Ss)
    (hm : ∃ b, d.get (.manifest S.fileId) = some b) (hdata : d.get (.incoming S.fileId) = some S.bytes) :
    (Reassembler.publish S.fileId (S.ground finals)).wp mayStrike (fun _ => Ground crc finals Ss) d := by
  have hmk : ∀ ps : List Path, (∀ p ∈ ps, p ∈ (S.ground finals).dropLast.inits) → Ground crc finals Ss (d.mkdirs ps) :=
    fun ps hps => h.of_tree (h.toTree.mkdirs hS (fun p hp => (List.mem_inits _ _).1 (hps p hp))) (fun _ => rfl)
  have hall := hmk (S.ground finals).dropLast.inits (fun _ hp => hp)
  have hclear := h.parent_clear hs.lands hS
  have htorn : ∀ n, Ground crc finals Ss (FsCall.torn (.createDirAll (S.ground finals).dropLast) n d) := by
    intro n
    simp only [FsCall.torn, hclear, Bool.false_eq_true, if_false]
    exact hmk _ (fun _ hp => List.mem_of_mem_take hp)
  have hdir : (d.mkdirs (S.ground finals).dropLast.inits).node (S.ground finals).dropLast = some .dir := by
    rw [Disk.node_mkdirs, if_pos ((List.mem_inits _ _).2 (List.prefix_refl _))]
  have hmove := hall.wp_moveInto hS hdata (hall.toTree.mayCreate hs.lands hS hdir)
  unfold Reassembler.publish Reassembler.createParent
  rw [if_neg (Tree.ground_ne_nil S), Calls.wp_bind]
  refine wp_io ?_ (fun n _ => htorn n) (fun n _ => htorn n)
  simp only [FsCall.sem, hclear, Bool.false_eq_true, if_false]
  show Calls.Prog.wp _ _ _ (d.mkdirs (S.ground finals).dropLast.inits)
  rw [Calls.wp_bind]
  refine Calls.wp_mono (fun r d' hr => ?_) _ hmove
  cases r with
  | err e => exact hr
  | panic => exact hr
  | crash => exact hr
  | ok u =>
    -- the data is in place, and the sidecar's removal is not struck
    obtain ⟨b, hb⟩ := hm
    have hd' : d' = ((d.mkdirs (S.ground finals).dropLast.inits).putFile (S.ground finals) S.bytes).del
        (.incoming S.fileId) := hr
    have hrem : FsCall.sem (.remove (.manifest S.fileId)) d' =
        (.ok (), d.published S.fileId (S.ground finals) S.bytes) := by
      have hg : d'.get (.manifest S.fileId) = some b := by
        rw [hd', Disk.get_del_ne _ (by simp), Disk.get_putFile, Disk.get_mkdirs, hb]
      simp only [FsCall.sem, hg]
      rw [hd']
      rfl
    show Calls.Prog.wp _ (io (.remove (.manifest S.fileId)) >>= fun _ => pure (S.ground finals)) _ d'
    rw [Calls.wp_bind]
    refine wp_io ?_ (fun n hn => hn.elim) (fun n hn => hn.elim)
    rw [hrem]
    exact h.published hS

/-- **Finalising any id keeps the invariant under every allowed strike.** -/
theorem wp_finalize (hs : Streams finals Ss) (h : Ground crc finals Ss d) (id : FileId) :
    (Reassembler.finalize crc finals id).wp mayStrike (fun _ => Ground crc finals Ss) d := by
  rcases h.held id with ⟨h1, -⟩ | ⟨S, hS, rfl, a, m, hm, hsd⟩
  · exact Reassembler.wp_finalize_none h1 (fun n _ => h) (fun n _ => h) h
  · refine Reassembler.wp_finalize_some hm (hsd.parse crc) hsd.isComplete (fun n _ => h) (fun n _ => h) (fun _ _ => h) ?_
    intro hf hname
    have hname' : m.name = S.name := by
      rw [hsd.name] at hname ⊢
      split
      · rfl
      · rename_i hn
        exact absurd (if_neg hn) hname
    rw [hname']
    exact h.wp_publish hs hS ⟨_, hm⟩ (hsd.data_eq (of_decide_eq_true hf))

end Ground

/-! ## Runs with failures and restarts -/

/-- What happens at the ground: a packet arrives, or `finalize` is called.  `strikes` hit the finalise that follows, call
by call; after a crash the process starts again on the disk as it is. -/
inductive GroundEvent
  | packet (pkt : Packet) (strikes : List (Option Strike))
  | finalize (id : FileId) (strikes : List (Option Strike))

namespace GroundEvent

variable (crc : Bytes → UInt32) (finals : Path)

def step (d : Disk) : GroundEvent → Disk
  | .packet pkt strikes =>
    match (Reassembler.ingest crc pkt).exec d with
    | (.ok .complete, d') => ((Reassembler.finalize crc finals pkt.fileId).run strikes d').2
    | (_, d')             => d'
  | .finalize id strikes => ((Reassembler.finalize crc finals id).run strikes d).2

/-- Every strike of the event is an allowed one. -/
def Survives (may : FsCall → Strike → Disk → Prop) (d : Disk) : GroundEvent → Prop
  | .packet pkt strikes =>
    match (Reassembler.ingest crc pkt).exec d with
    | (.ok .complete, d') => (Reassembler.finalize crc finals pkt.fileId).Meets may strikes d'
    | _                   => True
  | .finalize id strikes => (Reassembler.finalize crc finals id).Meets may strikes d

def run (d : Disk) (es : List GroundEvent) : Disk := es.foldl (step crc finals) d

instance (may : FsCall → Strike → Disk → Prop) [∀ c s d, Decidable (may c s d)] (d : Disk) :
    (e : GroundEvent) → Decidable (Survives crc finals may d e)
  | .packet pkt strikes  =>
    match h : (Reassembler.ingest crc pkt).exec d with
    | (.ok .complete, d')   => decidable_of_iff' ((Reassembler.finalize crc finals pkt.fileId).Meets may strikes d')
      (by simp only [Survives, h])
    | (.ok .accepted, _)   => .isTrue (by simp only [Survives, h])
    | (.ok .duplicate, _)  => .isTrue (by simp only [Survives, h])
    | (.ok .mismatched, _) => .isTrue (by simp only [Survives, h])
    | (.ok .ignored, _)    => .isTrue (by simp only [Survives, h])
    | (.err _, _)          => .isTrue (by simp only [Survives, h])
    | (.panic, _)          => .isTrue (by simp only [Survives, h])
    | (.crash, _)          => .isTrue (by simp only [Survives, h])
  | .finalize id strikes => inferInstanceAs (Decidable ((Reassembler.finalize crc finals id).Meets may strikes d))

/-- Every event of the run survives, at the disk it meets. -/
def RunSurvives (may : FsCall → Strike → Disk → Prop) : Disk → List GroundEvent → Prop
  | _, []      => True
  | d, e :: es => Survives crc finals may d e ∧ RunSurvives may (step crc finals d e) es

instance decidableRunSurvives (may : FsCall → Strike → Disk → Prop) [∀ c s d, Decidable (may c s d)] :
    (d : Disk) → (es : List GroundEvent) → Decidable (RunSurvives crc finals may d es)
  | _, []      => .isTrue trivial
  | d, e :: es =>
    have := decidableRunSurvives may (step crc finals d e) es
    inferInstanceAs (Decidable (Survives crc finals may d e ∧ RunSurvives crc finals may (step crc finals d e) es))

/-- The packets are those of the files listed. -/
def Honest (Ss : List Source) : GroundEvent → Prop
  | .packet pkt _  => ∃ S ∈ Ss, S.Sends pkt
  | .finalize _ _  => True

variable {crc finals}

theorem step_packet_nil (pkt : Packet) (d : Disk) :
    step crc finals d (.packet pkt []) = ((receivePacket crc finals pkt).exec d).2 := by
  rw [receivePacket_snd]
  cases hexec : (Reassembler.ingest crc pkt).exec d with
  | mk r d' =>
    cases r with
    | ok o => cases o <;> simp only [step, Calls.run_nil, hexec]
    | _ => simp only [step, hexec]

theorem step_packet {pkt : Packet} {d d' : Disk} {o : IngestOutcome} (h : (Reassembler.ingest crc pkt).exec d = (.ok o, d'))
    (strikes : List (Option Strike)) : step crc finals d (.packet pkt strikes) =
      if o = .complete then ((Reassembler.finalize crc finals pkt.fileId).run strikes d').2 else d' := by
  simp only [step, h]
  cases o <;> rfl

theorem survives_packet {pkt : Packet} {d d' : Disk} (h : (Reassembler.ingest crc pkt).exec d = (.ok .complete, d'))
    {may : FsCall → Strike → Disk → Prop} {strikes : List (Option Strike)} :
    Survives crc finals may d (.packet pkt strikes) ↔ (Reassembler.finalize crc finals pkt.fileId).Meets may strikes d' := by
  simp only [Survives, h]

variable {Ss : List Source}

theorem ground_step (hs : Streams finals Ss) {d : Disk} (h : Ground crc finals Ss d) {e : GroundEvent}
    (he : e.Honest Ss) (hm : e.Survives crc finals mayStrike d) : Ground crc finals Ss (step crc finals d e) := by
  cases e with
  | finalize id strikes => exact Calls.wp_sound _ (h.wp_finalize hs id) strikes hm
  | packet pkt strikes =>
    obtain ⟨S, hS, hp⟩ := he
    obtain ⟨o, d', ho, h'⟩ := h.ingest hs hS hp
    rw [step_packet ho]
    by_cases hc : o = .complete
    · subst hc
      exact Calls.wp_sound _ (h'.wp_finalize hs pkt.fileId) strikes ((survives_packet ho).1 hm)
    · rw [if_neg hc]
      exact h'

/-- **The invariant holds along every run that survives.** -/
theorem ground_run (hs : Streams finals Ss) : ∀ (es : List GroundEvent) {d : Disk}, Ground crc finals Ss d →
    (∀ e ∈ es, e.Honest Ss) → RunSurvives crc finals mayStrike d es → Ground crc finals Ss (run crc finals d es)
  | [], _, h, _, _        => h
  | e :: es, _, h, he, hm =>
    ground_run hs es (ground_step hs h (he e List.mem_cons_self) hm.1) (fun e' h' => he e' (List.mem_cons_of_mem _ h')) hm.2

end GroundEvent

/-- Every chunk a sidecar marks is in its data file, at its place in `S`. -/
def Disk.MarksPresent (crc : Bytes → UInt32) (S : Source) (d : Disk) : Prop :=
  ∀ id m i, d.sidecar crc id = some m → m.has i = true →
    ∃ data, d.get (.incoming id) = some data ∧ Holds data (i * S.payloadSize) (S.piece i)

theorem Ground.marksPresent {crc : Bytes → UInt32} {finals : Path} {S : Source} {d : Disk}
    (h : Ground crc finals [S] d) : d.MarksPresent crc S := by
  intro id m i hm hi
  obtain ⟨T, hT, rfl, -, a, hsd⟩ := h.sound hm
  obtain rfl := List.mem_singleton.1 hT
  have hgot := (hsd.has i).1 hi
  obtain ⟨data, hdata⟩ := Option.ne_none_iff_exists'.1 (hsd.present (Finset.ne_empty_of_mem hgot))
  have hh := hsd.holds i hgot
  rw [hdata] at hh
  exact ⟨data, hdata, hh⟩

/-- **Finalising is safe against every failure but two**: a copy cut in the middle, and a strike on the removal of the
sidecar. -/
theorem finalize_crash_safe (crc : Bytes → UInt32) (finals : Path) (S : Source) (sameFs : Bool) (es : List GroundEvent)
    (he : ∀ e ∈ es, e.Honest [S])
    (hm : GroundEvent.RunSurvives crc finals mayStrike (Disk.fresh finals sameFs) es) :
    ((GroundEvent.run crc finals (Disk.fresh finals sameFs) es).node (S.ground finals) = none ∨
      (GroundEvent.run crc finals (Disk.fresh finals sameFs) es).node (S.ground finals) = some (.file S.bytes)) ∧
    (GroundEvent.run crc finals (Disk.fresh finals sameFs) es).MarksPresent crc S := by
  have hs := S.streams_single finals
  have h := GroundEvent.ground_run hs es (@Ground.fresh crc finals [S] sameFs) he hm
  exact ⟨(h.delivered hs).1 S (List.mem_singleton_self S), h.marksPresent⟩

/-- The chunks and the name of a small file, with `strikes` at the finalise the name brings. -/
def GroundEvent.sampleRun (strikes : List (Option Strike)) : List GroundEvent :=
  (Source.sampleA.dataPackets [0, 1]).map (.packet · []) ++
    [.packet (Source.sampleA.chunker.manifestPacket Source.sampleA.name) strikes]

theorem GroundEvent.honest_sampleRun (strikes : List (Option Strike)) :
    ∀ e ∈ sampleRun strikes, e.Honest [Source.sampleA] := by
  intro e he
  rcases List.mem_append.1 he with he | he
  · obtain ⟨p, hp, rfl⟩ := List.mem_map.1 he
    exact ⟨_, List.mem_singleton_self _, Source.sends_dataPackets hp⟩
  · rw [List.mem_singleton.1 he]
    exact ⟨_, List.mem_singleton_self _, Source.Sends.manifest⟩

/-- Across file systems, a crash right after the copy: the file is there, and so is its assembly. -/
theorem finalize_crash_safe_after_copy :
    let d := GroundEvent.run crc32 [] (Disk.fresh [] false)
      (GroundEvent.sampleRun [none, none, none, none, some (.crash 0)])
    d.node (Source.sampleA.ground []) = some (.file Source.sampleA.bytes) ∧ d.marks crc32 1 0 = true ∧
      d.MarksPresent crc32 Source.sampleA := by
  intro d
  exact ⟨by decide +kernel, by decide +kernel, (finalize_crash_safe crc32 [] Source.sampleA false _
    (GroundEvent.honest_sampleRun _) (by decide +kernel)).2⟩

/-- **A crash between the rename and the removal of the sidecar** leaves a sidecar that marks chunks of a data file that
is gone; a late duplicate of the last chunk makes a new data file with a hole in it, and the name, sent again, publishes
it over the good one.  **A copy that fails after four bytes** leaves these four bytes as the file. -/
theorem finalize_not_crash_safe :
    let cut := GroundEvent.sampleRun [none, none, none, some (.crash 0)]
    let late := (Source.sampleA.dataPackets [1]).map (GroundEvent.packet · []) ++
      [.packet (Source.sampleA.chunker.manifestPacket Source.sampleA.name) []]
    (∀ e ∈ cut ++ late, e.Honest [Source.sampleA]) ∧
    (GroundEvent.run crc32 [] (Disk.fresh [] true) cut).marks crc32 1 0 = true ∧
    (GroundEvent.run crc32 [] (Disk.fresh [] true) cut).get (.incoming 1) = none ∧
    (GroundEvent.run crc32 [] (Disk.fresh [] true) (cut ++ late)).node (Source.sampleA.ground []) =
      some (.file (List.replicate 32 0 ++ (List.range' 32 8).map UInt8.ofNat)) ∧
    (GroundEvent.run crc32 [] (Disk.fresh [] false)
      (GroundEvent.sampleRun [none, none, none, some (.fail 5)])).node (Source.sampleA.ground []) =
      some (.file [0, 1, 2, 3]) := by
  intro cut late
  refine ⟨fun e he => ?_, by decide +kernel, by decide +kernel, by decide +kernel, by decide +kernel⟩
  rcases List.mem_append.1 he with he | he
  · exact GroundEvent.honest_sampleRun _ e he
  · rcases List.mem_append.1 he with he | he
    · obtain ⟨p, hp, rfl⟩ := List.mem_map.1 he
      exact ⟨_, List.mem_singleton_self _, Source.sends_dataPackets hp⟩
    · rw [List.mem_singleton.1 he]
      exact ⟨_, List.mem_singleton_self _, Source.Sends.manifest⟩

end Parachuter
