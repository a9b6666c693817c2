import Parachuter.Plan
import Parachuter.Reconcile
import Parachuter.Tidy
/-!
# Stranded — assemblies that nobody asks for

An assembly in holding is sought while something of it is missing: the cleaner plans a request for it, and the reconciler
leaves what is in flight to the cleaner (`sought_iff`).  A packet that fills an assembly also finalises it, so as long as
that goes through, nothing whole stays in holding; a failing rename does no harm, the copy stands in for it.  Any other
failure of the finalise leaves a whole assembly behind, and nobody asks for anything of it again.
-/
namespace Parachuter

open Blob (Bytes)

/-! ## Who asks for an assembly -/

/-- Some reconciliation pass on this disk asks for the file again. -/
def Resent (finals : Path) (d : Disk) (id : FileId) : Prop :=
  ∃ (σ : Type) (call : σ → SenderRequest → Reply × σ) (env : σ) (cfg : LiveConfig)
    (found : Option (Path × Except Error (List SnapshotRow))) (ages : FileId → Option UInt64)
    (status : Option (List SenderQueueSnapshot)) (view : Nat → Disk) (now : DateTime) (st : ReconcileState),
    ∃ q ∈ (Reconciler.run cfg call finals found d ages status view now st env).asked, q.1 = Reconciler.resend id

/-- The next cleaner pass plans a request for the id, or a reconciliation pass asks for the file again. -/
def Sought (crc : Bytes → UInt32) (finals : Path) (d : Disk) (id : FileId) : Prop :=
  (∃ p ∈ Cleaner.plan crc d, p.fileId = id) ∨ Resent finals d id

/-- Every id in flight whose sidecar can be read is sought. -/
def NoneStranded (crc : Bytes → UInt32) (finals : Path) (d : Disk) : Prop :=
  ∀ id ∈ Reassembler.inFlight d, (∃ m, d.sidecar crc id = some m) → Sought crc finals d id

theorem inFlight_of_sidecar {crc : Bytes → UInt32} {d : Disk} {id : FileId} {m : Manifest}
    (hm : d.sidecar crc id = some m) : id ∈ Reassembler.inFlight d := by
  obtain ⟨buf, hbuf, -⟩ := Disk.sidecar_some hm
  rw [Reassembler.mem_inFlight, hbuf]
  exact Option.some_ne_none buf

/-- **An assembly is sought exactly while it is not whole.** -/
theorem sought_iff {crc : Bytes → UInt32} {d : Disk} {id : FileId} {m : Manifest} (hm : d.sidecar crc id = some m)
    (finals : Path) : Sought crc finals d id ↔ ¬ m.Whole := by
  have hwhole : (m.name = [] ∨ ∃ i, i < m.numChunks.toNat ∧ m.has i = false) ↔ ¬ m.Whole := by
    unfold Manifest.Whole
    rw [not_and_or, not_not]
    refine or_congr_right ?_
    rw [not_forall]
    refine exists_congr (fun i => ?_)
    rw [Classical.not_imp, Bool.not_eq_true]
  rw [← hwhole, ← Cleaner.planned_iff hm]
  constructor
  · rintro (h | ⟨σ, call, env, cfg, found, ages, status, view, now, st, q, hq, heq⟩)
    · exact h
    · exact absurd heq (Reconciler.not_asked_inFlight (inFlight_of_sidecar hm) q hq)
  · exact .inl

theorem noneStranded_iff (crc : Bytes → UInt32) (finals : Path) (d : Disk) :
    NoneStranded crc finals d ↔ NoneWhole crc d := by
  constructor
  · intro h id m hm
    exact (sought_iff hm finals).1 (h id (inFlight_of_sidecar hm) ⟨m, hm⟩)
  · rintro h id - ⟨m, hm⟩
    exact (sought_iff hm finals).2 (h id m hm)

/-- **No assembly is stranded while every finalise goes through.**  In any state of any run, none is stranded exactly when
none is whole; and when the finalises of the run are hit by nothing but failing renames, that is so in every state. -/
theorem none_stranded (crc : Bytes → UInt32) (finals : Path) (Ss : List Source)
    (hname : ∀ S ∈ Ss, ∀ T ∈ Ss, S.fileId = T.fileId → S.name = T.name)
    (hapart : ∀ S ∈ Ss, ∀ T ∈ Ss, S.fileId ≠ T.fileId → ¬ S.ground finals <+: T.ground finals)
    (sameFs : Bool) (es : List GroundEvent) (he : ∀ e ∈ es, e.Honest Ss) :
    (∀ k, NoneStranded crc finals (GroundEvent.run crc finals (Disk.fresh finals sameFs) (es.take k)) ↔
      NoneWhole crc (GroundEvent.run crc finals (Disk.fresh finals sameFs) (es.take k))) ∧
    (GroundEvent.RunSurvives crc finals mayFailRename (Disk.fresh finals sameFs) es →
      ∀ k, NoneStranded crc finals (GroundEvent.run crc finals (Disk.fresh finals sameFs) (es.take k))) := by
  refine ⟨fun k => noneStranded_iff crc finals _, fun hm k => ?_⟩
  rw [noneStranded_iff]
  exact (GroundEvent.tidy_run ⟨hname, hapart⟩ (es.take k) (.fresh sameFs) (.fresh sameFs)
    (fun e h => he e (List.mem_of_mem_take h)) (GroundEvent.runSurvives_take es k hm)).2

/-- The rename fails, the copy takes its place: after the two chunks the name is asked for, at the end the file is in
place. -/
theorem none_stranded_rename_fails :
    let es := GroundEvent.sampleRun [none, none, some (.fail 0)]
    Sought crc32 [] (GroundEvent.run crc32 [] (Disk.fresh [] true) (es.take 2)) 1 ∧
      (GroundEvent.run crc32 [] (Disk.fresh [] true) es).node (Source.sampleA.ground []) =
        some (.file Source.sampleA.bytes) := by
  intro es
  have hsome : ((GroundEvent.run crc32 [] (Disk.fresh [] true) (es.take 2)).sidecar crc32 1).isSome = true := by
    decide +kernel
  obtain ⟨m, hm⟩ := Option.isSome_iff_exists.1 hsome
  refine ⟨?_, by decide +kernel⟩
  have hs := (Source.sampleA.streams_single []).lands
  exact (none_stranded crc32 [] [Source.sampleA] hs.name hs.apart true es (GroundEvent.honest_sampleRun _)).2 (by decide +kernel) 2 1 (inFlight_of_sidecar hm) ⟨m, hm⟩

/-- **Restarted between `Complete` and the finalise, or a finalise that cannot make the directory**: the assembly is whole
and in flight, and neither the cleaner nor the reconciler asks for anything of it. -/
theorem stranded_after_complete :
    let restarted := GroundEvent.run crc32 [] (Disk.fresh [] true) (GroundEvent.sampleRun [some (.crash 0)])
    let failed := GroundEvent.run crc32 [] (Disk.fresh [] true) (GroundEvent.sampleRun [none, some (.fail 0)])
    (∀ strikes, ∀ e ∈ GroundEvent.sampleRun strikes, e.Honest [Source.sampleA]) ∧
    (1 ∈ Reassembler.inFlight restarted ∧ (restarted.sidecar crc32 1).isSome ∧ ¬ Sought crc32 [] restarted 1 ∧
      restarted.node (Source.sampleA.ground []) = none) ∧
    (1 ∈ Reassembler.inFlight failed ∧ (failed.sidecar crc32 1).isSome ∧ ¬ Sought crc32 [] failed 1 ∧
      failed.node (Source.sampleA.ground []) = none) := by
  intro restarted failed
  have hstuck : ∀ d : Disk, (d.sidecar crc32 1).map (fun m => (m.numChunks, m.name, m.has 0, m.has 1)) =
      some (2, ['a'], true, true) → 1 ∈ Reassembler.inFlight d ∧ (d.sidecar crc32 1).isSome ∧ ¬ Sought crc32 [] d 1 := by
    intro d hd
    obtain ⟨m, hm, hw⟩ := Option.map_eq_some_iff.1 hd
    simp only [Prod.mk.injEq] at hw
    obtain ⟨hn, hname, h0, h1⟩ := hw
    refine ⟨inFlight_of_sidecar hm, by rw [hm]; rfl, ?_⟩
    rw [sought_iff hm, not_not]
    refine ⟨by rw [hname]; simp, fun i hi => ?_⟩
    rw [hn] at hi
    have hi' : i < 2 := hi
    obtain rfl | rfl : i = 0 ∨ i = 1 := by omega
    · exact h0
    · exact h1
  obtain ⟨a1, a2, a3⟩ := hstuck restarted (by decide +kernel)
  obtain ⟨b1, b2, b3⟩ := hstuck failed (by decide +kernel)
  exact ⟨GroundEvent.honest_sampleRun, ⟨a1, a2, a3, by decide +kernel⟩, ⟨b1, b2, b3, by decide +kernel⟩⟩

end Parachuter
