import Parachuter.Overlap
/-!
# Repeats — the passes of one cleaner process

The table of recent requests is asked for the exact range.  While a gap keeps its shape from pass to pass, and the table
is asked before its entry expires, none of its chunks is asked for twice within the time to live (`no_repeat_of_shapes`);
a chunk that arrives in between makes another range of what is left of its gap, which the table does not know.
-/
namespace Parachuter

open Blob (Bytes)

namespace Cleaner

/-- What one pass meets: the configuration, the sender's status if it answers, the disks the planning loop reads, the
clock, and whom it asks. -/
structure PassInput (σ : Type) where
  cfg    : LiveConfig
  status : Option (List SenderQueueSnapshot)
  listed : Disk
  atName : FileId → Disk
  atGaps : FileId → Disk
  rd     : Readings
  env    : σ

/-- A running cleaner: the requests it has made, and its table. -/
structure Process where
  history : List Issue
  dedup   : DedupTable

section

variable {σ : Type} (crc : Bytes → UInt32) (call : σ → SenderRequest → Reply × σ)

def PassInput.planned (x : PassInput σ) : List Planned := planning crc x.listed x.atName x.atGaps

/-- When the pass is over. -/
def PassInput.endsAt (x : PassInput σ) : Nat := x.rd.lookedUp (x.planned crc).length

namespace Process

/-- The requests of a pass over the items `pre`. -/
def issued (s : Process) (x : PassInput σ) (pre : List Planned) : List Issue :=
  Cleaner.issued call x.status x.cfg.budget x.rd s.dedup x.env pre

def step (s : Process) (x : PassInput σ) : Process :=
  match runPass x.cfg call x.status (x.planned crc) x.rd.lookedUp s.dedup x.env with
  | .error _ => s
  | .ok pass => ⟨s.history ++ s.issued call x (x.planned crc), pass.dedup⟩

def run (s : Process) (xs : List (PassInput σ)) : Process := xs.foldl (step crc call) s

/-- The request `p` shares a chunk with `i`. -/
def Shares (i : Issue) (p : Planned) : Prop := ∃ id c, i.planned.request.Covers id c ∧ p.request.Covers id c

/-- At its turn in a pass a gap that is not pending, and that shares a chunk with a request issued less than the time to
live before, is that request's own range, and the table is asked for it before the entry of that request expires. -/
def ShapesKept (s : Process) (x : PassInput σ) : Prop :=
  ∀ pre p post, x.planned crc = pre ++ p :: post →
    okCount (s.issued call x pre) < x.cfg.budget.maxInFlight.toNat → isAlreadyPending x.status p = false →
    ∀ i ∈ s.history ++ s.issued call x pre, Shares i p → x.rd.sent pre.length < i.sentAt + s.dedup.ttl →
      i.planned = p ∧ x.rd.lookedUp pre.length < i.lookedUp + s.dedup.ttl

/-- No chunk is asked for twice within the time to live. -/
def NoRepeat (ttl : Nat) (is : List Issue) : Prop :=
  is.Pairwise (fun i j => Shares i j.planned → i.sentAt + ttl ≤ j.sentAt)

end Process

end

namespace Process

variable {σ : Type} {crc : Bytes → UInt32} {call : σ → SenderRequest → Reply × σ} {s : Process} {x : PassInput σ}

theorem step_eq (s : Process) (x : PassInput σ) : s.step crc call x =
    ⟨s.history ++ s.issued call x (x.planned crc),
      (after call x.status x.cfg.budget x.rd s.dedup x.env (x.planned crc)).dedup.gc (x.endsAt crc)⟩ := by
  unfold step
  rw [runPass_eq]
  rfl

theorem run_concat (s : Process) (xs : List (PassInput σ)) (x : PassInput σ) :
    s.run crc call (xs ++ [x]) = (s.run crc call xs).step crc call x := List.foldl_append

/-- What the process has asked for, each with the moment its entry expires. -/
def recs (s : Process) : List (Planned × Nat) := s.history.map (fun i => (i.planned, i.lookedUp + s.dedup.ttl))

/-- **A turn that asks for a gap within the condition repeats nothing**: the table would have refused it. -/
theorem noRepeat_turn {pre post : List Planned} {p : Planned} (hkept : s.ShapesKept crc call x)
    (hsplit : x.planned crc = pre ++ p :: post) (hasks : Asks call x.status x.cfg.budget x.rd s.dedup x.env pre p)
    (hrem : (after call x.status x.cfg.budget x.rd s.dedup x.env pre).dedup.Remembers (x.rd.lookedUp pre.length)
      ((s.history ++ s.issued call x pre).map (fun i => (i.planned, i.lookedUp + s.dedup.ttl))))
    {i : Issue} (hi : i ∈ s.history ++ s.issued call x pre) (hshares : Shares i p) :
    i.sentAt + s.dedup.ttl ≤ x.rd.sent pre.length := by
  by_contra hearly
  obtain ⟨hsame, hheld⟩ := hkept pre p post hsplit hasks.room hasks.notPending i hi hshares (Nat.lt_of_not_le hearly)
  have hmem : (p, i.lookedUp + s.dedup.ttl) ∈
      (s.history ++ s.issued call x pre).map (fun i => (i.planned, i.lookedUp + s.dedup.ttl)) := by
    rw [← hsame]
    exact List.mem_map_of_mem hi
  have hrefused := hrem.refuses hmem hheld
  rw [hasks.fresh] at hrefused
  cases hrefused

/-- **One pass**: under the condition it repeats nothing, and its table remembers all requests so far. -/
theorem noRepeat_step (hkept : s.ShapesKept crc call x) (h : NoRepeat s.dedup.ttl s.history)
    (hrem : s.dedup.Remembers (x.rd.lookedUp 0) s.recs) :
    NoRepeat s.dedup.ttl (s.step crc call x).history ∧ (s.step crc call x).dedup.ttl = s.dedup.ttl ∧
      (s.step crc call x).dedup.Remembers (x.endsAt crc) (s.step crc call x).recs := by
  have hrem' : ∀ pre, (after call x.status x.cfg.budget x.rd s.dedup x.env pre).dedup.Remembers (x.rd.lookedUp pre.length)
      ((s.history ++ s.issued call x pre).map (fun i => (i.planned, i.lookedUp + s.dedup.ttl))) := by
    intro pre
    rw [List.map_append]
    exact remembers_after hrem pre
  have hpairs : NoRepeat s.dedup.ttl (s.history ++ s.issued call x (x.planned crc)) := by
    refine @issued_induction σ call x.status x.cfg.budget x.rd s.dedup x.env
      (fun _ is _ => NoRepeat s.dedup.ttl (s.history ++ is)) (x.planned crc) (by rw [List.append_nil]; exact h)
      (fun _ _ _ h => h) ?_ (x.planned crc) [] (List.append_nil _).symm
    intro pre p post hsplit hasks hpre
    rw [← List.append_assoc]
    refine List.pairwise_append.2 ⟨hpre, List.pairwise_singleton _ _, fun i hi j hj => ?_⟩
    rw [List.mem_singleton.1 hj]
    exact noRepeat_turn hkept hsplit hasks (hrem' pre) hi
  have httl : (s.step crc call x).dedup.ttl = s.dedup.ttl := by
    rw [step_eq]
    exact ttl_after (x.planned crc)
  refine ⟨by rw [step_eq]; exact hpairs, httl, ?_⟩
  unfold recs
  rw [httl, step_eq]
  exact (hrem' (x.planned crc)).gc

end Process

end Cleaner

/-- **When no chunk is asked for twice within the time to live.**  Passes of one process, one after another, with the
sender's status or without and the disk in any state at each: in every run whose turns all meet `ShapesKept`, any two
requests that share a chunk of a file are issued at least the time to live apart. -/
theorem no_repeat_of_shapes {σ : Type} (crc : Bytes → UInt32) (call : σ → SenderRequest → Reply × σ) (loaded : DedupTable)
    (xs : List (Cleaner.PassInput σ)) (hclock : xs.Pairwise (fun x y => x.endsAt crc ≤ y.rd.lookedUp 0))
    (hkept : ∀ pre x post, xs = pre ++ x :: post →
      (Cleaner.Process.run crc call ⟨[], loaded⟩ pre).ShapesKept crc call x) :
    Cleaner.Process.NoRepeat loaded.ttl (Cleaner.Process.run crc call ⟨[], loaded⟩ xs).history := by
  -- along the run the table remembers every request, from the end of the last pass on
  have hrun : ∀ pre post, xs = pre ++ post →
      let s := Cleaner.Process.run crc call ⟨[], loaded⟩ pre
      Cleaner.Process.NoRepeat loaded.ttl s.history ∧ s.dedup.ttl = loaded.ttl ∧
        ∀ now, (∀ x ∈ pre, x.endsAt crc ≤ now) → s.dedup.Remembers now s.recs := by
    intro pre
    induction pre using List.reverseRecOn with
    | nil =>
      intro post _ s
      exact ⟨List.Pairwise.nil, rfl, fun now _ => ⟨(fun e he => by cases he), (fun e he => by cases he)⟩⟩
    | append_singleton pre x ih =>
      intro post heq s
      have hsplit : xs = pre ++ x :: post := by rw [heq, List.append_assoc, List.singleton_append]
      obtain ⟨hno, httl, hrem⟩ := ih (x :: post) hsplit
      have hbefore : ∀ y ∈ pre, y.endsAt crc ≤ x.rd.lookedUp 0 := by
        rw [hsplit, List.pairwise_append] at hclock
        exact fun y hy => hclock.2.2 y hy x List.mem_cons_self
      have hs : s = (Cleaner.Process.run crc call ⟨[], loaded⟩ pre).step crc call x := Cleaner.Process.run_concat _ pre x
      rw [← httl] at hno
      obtain ⟨hno', httl', hrem'⟩ := Cleaner.Process.noRepeat_step (hkept pre x post hsplit) hno (hrem _ hbefore)
      rw [hs]
      refine ⟨httl ▸ hno', httl'.trans httl, fun now hnow => hrem'.later ?_⟩
      exact hnow x (List.mem_append_right _ List.mem_cons_self)
  exact (hrun xs [] (List.append_nil _).symm).1

namespace Forty

/-- The ground once the first chunk is there too. -/
def half : Disk :=
  ((source 64 Source.sizeOk_64).dataPackets [0]).foldl (fun d p => ((receivePacket crc32 [] p).exec d).2) named

theorem plan_half : Cleaner.plan crc32 half = [⟨1, ⟨1, 1⟩, .retransmit⟩] :=
  plan_of_keys (by decide +kernel) (by decide +kernel)

/-- A pass over what is on the disk at `t`; the sender cannot be asked for its status. -/
def passOn (d : Disk) (t : Nat) : Cleaner.PassInput Unit := ⟨.default, none, d, fun _ => d, fun _ => d, clockAt t, ()⟩

/-- A sender that takes every request. -/
def takesAll (u : Unit) (_ : SenderRequest) : Reply × Unit := (.ok, u)

theorem planned_passOn (d : Disk) (t : Nat) : (passOn d t).planned crc32 = Cleaner.plan crc32 d := rfl

theorem run_named : Cleaner.Process.run crc32 takesAll ⟨[], .new (300 * SECOND)⟩ [passOn named 0] =
    ⟨[⟨⟨1, ⟨0, 2⟩, .retransmit⟩, 0, 0, 0, .ok⟩], ⟨[(⟨1, ⟨0, 2⟩, .retransmit⟩, 300 * SECOND)], 300 * SECOND⟩⟩ := by
  rw [Cleaner.Process.run, List.foldl_cons, List.foldl_nil, Cleaner.Process.step_eq, Cleaner.PassInput.endsAt, planned_passOn,
    plan_named]
  rfl

end Forty

/-- **A second later nothing has arrived**: the gap is the same, and it is not asked for again. -/
theorem no_repeat_same_gap : Cleaner.Process.NoRepeat (300 * SECOND) (Cleaner.Process.run crc32 Forty.takesAll
    ⟨[], .new (300 * SECOND)⟩ [Forty.passOn Forty.named 0, Forty.passOn Forty.named SECOND]).history := by
  refine no_repeat_of_shapes crc32 Forty.takesAll (.new (300 * SECOND)) _ ?_ ?_
  · refine List.pairwise_pair.2 ?_
    exact Nat.zero_le _
  · intro pre x post hxs pre' p post' hplan _ _ i hi _ _
    have hx : x.planned crc32 = [⟨1, ⟨0, 2⟩, .retransmit⟩] := by
      have hmem : x ∈ [Forty.passOn Forty.named 0, Forty.passOn Forty.named SECOND] := by rw [hxs]; simp
      rcases List.mem_pair.1 hmem with rfl | rfl
      · rw [Forty.planned_passOn, Forty.plan_named]
      · rw [Forty.planned_passOn, Forty.plan_named]
    rw [hx] at hplan
    obtain ⟨rfl, rfl, rfl⟩ : pre' = [] ∧ p = ⟨1, ⟨0, 2⟩, .retransmit⟩ ∧ post' = [] := by
      cases pre' with
      | nil => cases hplan; exact ⟨rfl, rfl, rfl⟩
      | cons a l => cases l <;> cases hplan
    match pre, hxs with
    | [], _ => cases hi
    | [y], hxs =>
      cases hxs
      rw [Forty.run_named] at hi ⊢
      rw [List.mem_singleton.1 hi]
      exact ⟨rfl, by decide⟩
    | _ :: _ :: pre, hxs => cases pre <;> cases hxs

/-- **A second later the first chunk has arrived**: what is left of the gap is another range, and the second chunk is asked
for again. -/
theorem repeat_of_split_gap :
    [Forty.passOn Forty.named 0, Forty.passOn Forty.half SECOND].Pairwise
      (fun x y => x.endsAt crc32 ≤ y.rd.lookedUp 0) ∧
    ¬ Cleaner.Process.NoRepeat (300 * SECOND) (Cleaner.Process.run crc32 Forty.takesAll ⟨[], .new (300 * SECOND)⟩
      [Forty.passOn Forty.named 0, Forty.passOn Forty.half SECOND]).history := by
  refine ⟨List.pairwise_pair.2 (Nat.zero_le _), fun hno => ?_⟩
  have hhist : (Cleaner.Process.run crc32 Forty.takesAll ⟨[], .new (300 * SECOND)⟩
      [Forty.passOn Forty.named 0, Forty.passOn Forty.half SECOND]).history =
      [⟨⟨1, ⟨0, 2⟩, .retransmit⟩, 0, 0, 0, .ok⟩, ⟨⟨1, ⟨1, 1⟩, .retransmit⟩, SECOND, SECOND, SECOND, .ok⟩] := by
    have hlast := @Cleaner.Process.run_concat _ crc32 Forty.takesAll ⟨[], .new (300 * SECOND)⟩ [Forty.passOn Forty.named 0]
      (Forty.passOn Forty.half SECOND)
    rw [List.singleton_append] at hlast
    rw [hlast, Forty.run_named, Cleaner.Process.step_eq, Forty.planned_passOn, Forty.plan_half]
    rfl
  rw [hhist] at hno
  have hapart := List.pairwise_pair.1 hno ⟨1, 1, Cleaner.covers_request.2 ⟨rfl, .inr (by decide)⟩,
    Cleaner.covers_request.2 ⟨rfl, .inr (by decide)⟩⟩
  exact absurd hapart (by decide)

end Parachuter
