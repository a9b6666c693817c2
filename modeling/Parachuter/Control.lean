import Parachuter.Lib.Frames
import Parachuter.Lib.Serial
import Parachuter.Lib.Utf8
import Parachuter.Reconcile
/-!
# The control plane (`control/messages.rs`, `control/server.rs`, `control/client.rs`)

A daemon answers framed requests on a Unix socket.  `ControlStep` is one thing that happens to its server: a connection is
accepted, bytes come in on one, its peer hangs up, its task takes a turn, or something else changes the daemon's state.
The handler is a parameter, `serve`, called under the server's lock; so are the JSON codec, and what is still in the
buffers: a write goes out whole or breaks off.  `received` and `history` are kept for the statements, nothing reads them.
-/
namespace Parachuter

open Blob (Bytes)
open Frames (frame head bodies)

/-! ## Messages -/

def CARGO_PKG_VERSION : String := "0.2.0"

inductive Request
  | ping
  | senderStatus
  | senderConfigure (o : LinkOverride)
  | senderSetState (new : SenderState)
  | senderEnqueue (fileId : FileId) (start : Int32) (count : UInt32) (interrupt : Bool)
  | senderResendName (fileId : FileId)
  | senderFlush
  | senderSubmit (path : Text) (interrupt : Bool)
  | receiverStatus
  | cleanerStatus
  | cleanerRunNow
  | cleanerReconcileNow
  deriving DecidableEq, Repr

structure SenderStatus where
  state         : SenderState
  activeLink    : String
  linkIp        : String
  linkPort      : UInt16
  chunkSize     : Nat
  maxKbps       : UInt64
  currentFileId : FileId
  queueDepth    : UInt32
  pending       : List SenderQueueSnapshot
  revision      : UInt64
  deriving DecidableEq, Repr

structure AssemblyState where
  fileId         : FileId
  chunksTotal    : UInt32
  chunksReceived : UInt32
  hasName        : Bool
  ageSecs        : UInt64
  deriving DecidableEq, Repr

structure ReceiverStatus where
  bind       : String
  assemblies : List AssemblyState
  deriving DecidableEq, Repr

structure CleanerStatus where
  inFlight          : List SenderQueueSnapshot
  recentRequests    : UInt32
  activeLink        : String
  lastReconcile     : Option ReconcileSummary
  nextReconcileUnix : Option Int64
  deriving DecidableEq, Repr

inductive Response
  | ok
  | pong (daemon version : String)
  | senderStatus (status : SenderStatus)
  | receiverStatus (status : ReceiverStatus)
  | cleanerStatus (status : CleanerStatus)
  | submitted (ack : SubmitAck)
  | badRequest (reason : String)
  | unsupported
  | error (message : String)
  deriving DecidableEq, Repr

/-- The JSON of the messages, and what reading them back answers. -/
structure ControlCodec where
  encodeRequest  : Request → Bytes
  parseRequest   : Bytes → Except String Request
  encodeResponse : Response → Bytes
  parseResponse  : Bytes → Except String Response

/-- The length the server accepts. -/
def REQUEST_MAX : Nat := 1000000

/-- The lengths four bytes can say. -/
def WORD_MAX : Nat := 2 ^ 32 - 1

/-! ## The server -/

/-- What a connection's task is at. -/
inductive Phase
  | reading
  | waiting (req : Request)
  | writing (resp : Response)
  | closed (result : Except Error Unit)
  deriving DecidableEq

structure Conn where
  received : Bytes
  inbound  : Bytes
  hungUp   : Bool
  phase    : Phase
  outbound : Bytes
  deriving DecidableEq

namespace Conn

def new : Conn := ⟨[], [], false, .reading, []⟩

/-- The next request, as soon as it is there whole. -/
def read (codec : ControlCodec) (c : Conn) : Conn :=
  match head REQUEST_MAX c.inbound with
  | .refused => { c with phase := .closed (.ok ()) }
  | .short   =>
    if c.hungUp = false then c
    else if c.inbound.length < 4 then { c with phase := .closed (.ok ()) }
    else { c with phase := .closed (.error (.io .other)) }
  | .whole payload rest =>
    match codec.parseRequest payload with
    | .ok req  => { c with inbound := rest, phase := .waiting req }
    | .error e => { c with inbound := rest, phase := .writing (.badRequest ("malformed json: " ++ e)) }

/-- `write_response`: `cut` is where the peer goes away, if it does. -/
def writeResponse (codec : ControlCodec) (c : Conn) (resp : Response) : Option Nat → Conn
  | none     => { c with outbound := c.outbound ++ frame (codec.encodeResponse resp), phase := .reading }
  | some cut => { c with
    outbound := c.outbound ++ (frame (codec.encodeResponse resp)).take cut
    phase := .closed (.error (.io .other)) }

end Conn

structure ControlServer (σ δ : Type) where
  handler : σ
  conns   : List Conn
  history : List (Serial.Entry Nat Request Response δ)

inductive ControlStep (δ : Type)
  | accept
  | arrive (k : Nat) (bytes : Bytes)
  | hangUp (k : Nat)
  | turn (k : Nat) (cut : Option Nat)
  | outside (d : δ)

/-- What happens outside the server at a step, if anything. -/
def ControlStep.outside? {δ : Type} : ControlStep δ → Option δ
  | .outside d => some d
  | _          => none

namespace ControlServer

variable {σ δ : Type} (codec : ControlCodec) (serve : σ → Request → Response × σ) (move : σ → δ → σ)

def start (s : σ) : ControlServer σ δ := ⟨s, [], []⟩

/-- A turn of `handle_conn`: it reads a request, has it handled, or writes the answer. -/
def turn (s : ControlServer σ δ) (k : Nat) (cut : Option Nat) (c : Conn) : ControlServer σ δ :=
  match c.phase with
  | .reading      => { s with conns := s.conns.set k (c.read codec) }
  | .waiting req  =>
    { handler := (serve s.handler req).2
      conns := s.conns.set k { c with phase := .writing (serve s.handler req).1 }
      history := s.history ++ [.call k req (serve s.handler req).1] }
  | .writing resp => { s with conns := s.conns.set k (c.writeResponse codec resp cut) }
  | .closed _     => s

def apply (s : ControlServer σ δ) : ControlStep δ → ControlServer σ δ
  | .accept         => { s with conns := s.conns ++ [.new] }
  | .arrive k bytes => { s with conns := s.conns.modify k (fun c =>
      if c.hungUp then c else { c with received := c.received ++ bytes, inbound := c.inbound ++ bytes }) }
  | .hangUp k       => { s with conns := s.conns.modify k (fun c => { c with hungUp := true }) }
  | .turn k cut     =>
    match s.conns[k]? with
    | none   => s
    | some c => s.turn codec serve k cut c
  | .outside d      => { s with handler := move s.handler d, history := s.history ++ [.change d] }

def run (s : ControlServer σ δ) (steps : List (ControlStep δ)) : ControlServer σ δ := steps.foldl (apply codec serve move) s

end ControlServer

/-! ## What a connection is answered -/

namespace ControlCodec

variable (codec : ControlCodec)

/-- The requests among the messages. -/
def asked (bodies : List Bytes) : List Request := bodies.filterMap (fun b => (codec.parseRequest b).toOption)

/-- The answers to the messages, those of the handler given: a message that is no request is told so. -/
def replies : List Bytes → List Response → List Response
  | [], _        => []
  | b :: bs, rs  =>
    match codec.parseRequest b, rs with
    | .error e, rs   => .badRequest ("malformed json: " ++ e) :: replies bs rs
    | .ok _, r :: rs => r :: replies bs rs
    | .ok _, []      => []

def written (rs : List Response) : Bytes := rs.flatMap (fun r => frame (codec.encodeResponse r))

end ControlCodec

/-- The task waits for its peer. -/
def Conn.Idle (c : Conn) : Prop := c.phase = .reading ∧ head REQUEST_MAX c.inbound = .short

namespace ControlCodec

variable {codec : ControlCodec}

@[simp] theorem asked_nil : codec.asked [] = [] := rfl

@[simp] theorem asked_append (bs bs' : List Bytes) : codec.asked (bs ++ bs') = codec.asked bs ++ codec.asked bs' :=
  List.filterMap_append

theorem asked_ok {b : Bytes} {req : Request} (h : codec.parseRequest b = .ok req) : codec.asked [b] = [req] := by
  simp [asked, h, Except.toOption]

theorem asked_error {b : Bytes} {e : String} (h : codec.parseRequest b = .error e) : codec.asked [b] = [] := by
  simp [asked, h, Except.toOption]

@[simp] theorem written_append (rs rs' : List Response) : codec.written (rs ++ rs') = codec.written rs ++ codec.written rs' :=
  List.flatMap_append

theorem written_single (r : Response) : codec.written [r] = frame (codec.encodeResponse r) := by simp [written]

/-- Messages that come later are answered after the others. -/
theorem replies_append (bs' : List Bytes) (rs' : List Response) : ∀ {bs : List Bytes} {rs : List Response},
    rs.length = (codec.asked bs).length → codec.replies (bs ++ bs') (rs ++ rs') = codec.replies bs rs ++ codec.replies bs' rs'
  | [], rs, h => by
    rw [asked_nil, List.length_nil, List.length_eq_zero_iff] at h
    subst h
    rfl
  | b :: bs, rs, h => by
    rw [← List.singleton_append, asked_append] at h
    cases hb : codec.parseRequest b with
    | error e =>
      rw [asked_error hb, List.nil_append] at h
      simp only [List.cons_append, replies, hb]
      rw [replies_append bs' rs' h]
    | ok req =>
      rw [asked_ok hb, List.singleton_append, List.length_cons] at h
      cases rs with
      | nil => cases h
      | cons r rs =>
        simp only [List.cons_append, replies, hb]
        rw [replies_append bs' rs' (Nat.succ.inj h)]

theorem replies_ok {b : Bytes} {req : Request} (h : codec.parseRequest b = .ok req) (r : Response) :
    codec.replies [b] [r] = [r] := by simp [replies, h]

theorem replies_error {b : Bytes} {e : String} (h : codec.parseRequest b = .error e) :
    codec.replies [b] [] = [.badRequest ("malformed json: " ++ e)] := by simp [replies, h]

end ControlCodec

namespace Conn

variable {codec : ControlCodec} {calls : List (Request × Response)} {c : Conn} {done : List Bytes}

/-- What the task has done with the messages `done`, of which the handler answered the requests by `calls`. -/
def At (codec : ControlCodec) (calls : List (Request × Response)) (done : List Bytes) (c : Conn) : Prop :=
  match c.phase with
  | .reading      => calls.map Prod.fst = codec.asked done ∧
    c.outbound = codec.written (codec.replies done (calls.map Prod.snd))
  | .waiting req  => ∃ pre b, done = pre ++ [b] ∧ codec.parseRequest b = .ok req ∧ calls.map Prod.fst = codec.asked pre ∧
    c.outbound = codec.written (codec.replies pre (calls.map Prod.snd))
  | .writing resp => calls.map Prod.fst = codec.asked done ∧
    ∃ rs, codec.replies done (calls.map Prod.snd) = rs ++ [resp] ∧ c.outbound = codec.written rs
  | .closed _     => calls.map Prod.fst = codec.asked done ∧
    c.outbound <+: codec.written (codec.replies done (calls.map Prod.snd))

/-- The task has taken the messages `done` from the stream, and stands where they leave it. -/
structure Follows (codec : ControlCodec) (calls : List (Request × Response)) (c : Conn) (done : List Bytes) : Prop where
  stream : ∀ more, bodies REQUEST_MAX (c.received ++ more) = done ++ bodies REQUEST_MAX (c.inbound ++ more)
  at_    : c.At codec calls done

theorem follows_new : Conn.new.Follows codec [] [] := ⟨fun _ => rfl, rfl, rfl⟩

theorem Follows.done_prefix (h : c.Follows codec calls done) : done <+: bodies REQUEST_MAX c.received := by
  have hs := h.stream []
  rw [List.append_nil] at hs
  rw [hs]
  exact List.prefix_append _ _

/-- **Reading**: the task takes the next message, or waits, or gives up. -/
theorem Follows.read (h : c.Follows codec calls done) (hphase : c.phase = .reading) :
    ∃ done', (c.read codec).Follows codec calls done' := by
  obtain ⟨hstream, hat⟩ := h
  unfold At at hat
  rw [hphase] at hat
  obtain ⟨hasked, hout⟩ := hat
  have hlen : (calls.map Prod.snd).length = (codec.asked done).length := by rw [← hasked]; simp
  unfold Conn.read
  cases hhead : head REQUEST_MAX c.inbound with
  | refused => exact ⟨done, hstream, hasked, by rw [hout]⟩
  | short =>
    dsimp only
    split
    · exact ⟨done, hstream, by unfold At; rw [hphase]; exact ⟨hasked, hout⟩⟩
    split
    · exact ⟨done, hstream, hasked, by rw [hout]⟩
    · exact ⟨done, hstream, hasked, by rw [hout]⟩
  | whole payload rest =>
    have hnext : ∀ more, bodies REQUEST_MAX (c.received ++ more) =
        (done ++ [payload]) ++ bodies REQUEST_MAX (rest ++ more) := by
      intro more
      rw [hstream, Frames.bodies_whole (Frames.head_append_whole hhead more), List.append_assoc, List.singleton_append]
    dsimp only
    cases hparse : codec.parseRequest payload with
    | ok req => exact ⟨done ++ [payload], hnext, done, payload, rfl, hparse, hasked, hout⟩
    | error e =>
      refine ⟨done ++ [payload], hnext, ?_, codec.replies done (calls.map Prod.snd), ?_, hout⟩
      · rw [ControlCodec.asked_append, ControlCodec.asked_error hparse]
        exact hasked.trans (List.append_nil _).symm
      · have happ := @ControlCodec.replies_append codec [payload] [] _ _ hlen
        rwa [List.append_nil, ControlCodec.replies_error hparse] at happ

/-- **Handling**: the handler's answer is the next to go out. -/
theorem Follows.handle {req : Request} (h : c.Follows codec calls done) (hphase : c.phase = .waiting req) (resp : Response) :
    Conn.Follows codec (calls ++ [(req, resp)]) { c with phase := .writing resp } done := by
  obtain ⟨hstream, hat⟩ := h
  unfold At at hat
  rw [hphase] at hat
  obtain ⟨pre, b, rfl, hparse, hasked, hout⟩ := hat
  have hlen : (calls.map Prod.snd).length = (codec.asked pre).length := by rw [← hasked]; simp
  refine ⟨hstream, ?_, codec.replies pre (calls.map Prod.snd), ?_, hout⟩
  · rw [List.map_append, hasked, ControlCodec.asked_append, ControlCodec.asked_ok hparse]
    rfl
  · rw [List.map_append, ControlCodec.replies_append _ _ hlen]
    exact congrArg _ (ControlCodec.replies_ok hparse resp)

/-- **Writing**: the answer is out, or part of it is and the connection is over. -/
theorem Follows.writeResponse {resp : Response} (h : c.Follows codec calls done) (hphase : c.phase = .writing resp)
    (cut : Option Nat) : (c.writeResponse codec resp cut).Follows codec calls done := by
  obtain ⟨hstream, hat⟩ := h
  unfold At at hat
  rw [hphase] at hat
  obtain ⟨hasked, rs, hreplies, hout⟩ := hat
  have hwhole : codec.written (codec.replies done (calls.map Prod.snd)) = c.outbound ++ frame (codec.encodeResponse resp) := by
    rw [hreplies, ControlCodec.written_append, ControlCodec.written_single, hout]
  cases cut with
  | none => exact ⟨hstream, hasked, hwhole.symm⟩
  | some cut =>
    refine ⟨hstream, hasked, ?_⟩
    rw [hwhole]
    exact (List.prefix_append_right_inj _).2 (List.take_prefix _ _)

theorem Follows.arrive (h : c.Follows codec calls done) (bytes : Bytes) :
    Conn.Follows codec calls { c with received := c.received ++ bytes, inbound := c.inbound ++ bytes } done := by
  refine ⟨fun more => ?_, h.at_⟩
  dsimp only
  rw [List.append_assoc, List.append_assoc]
  exact h.stream (bytes ++ more)

/-- **What a connection was answered**, read off its task. -/
theorem Follows.answered (h : c.Follows codec calls done) : ∃ done, done <+: bodies REQUEST_MAX c.received ∧
    calls.map Prod.fst = codec.asked done ∧ c.outbound <+: codec.written (codec.replies done (calls.map Prod.snd)) ∧
    (c.Idle → done = bodies REQUEST_MAX c.received ∧
      c.outbound = codec.written (codec.replies done (calls.map Prod.snd))) := by
  have hpre := h.done_prefix
  obtain ⟨hstream, hat⟩ := h
  unfold At at hat
  cases hphase : c.phase with
  | reading =>
    rw [hphase] at hat
    refine ⟨done, hpre, hat.1, by rw [hat.2], fun hidle => ⟨?_, hat.2⟩⟩
    have hs := hstream []
    rw [List.append_nil, List.append_nil, Frames.bodies_of_short hidle.2, List.append_nil] at hs
    exact hs.symm
  | waiting req =>
    rw [hphase] at hat
    obtain ⟨pre, b, rfl, hparse, hasked, hout⟩ := hat
    refine ⟨pre, (List.prefix_append _ _).trans hpre, hasked, by rw [hout], fun hidle => ?_⟩
    rw [hidle.1] at hphase
    cases hphase
  | writing resp =>
    rw [hphase] at hat
    obtain ⟨hasked, rs, hreplies, hout⟩ := hat
    refine ⟨done, hpre, hasked, ?_, fun hidle => ?_⟩
    · rw [hreplies, ControlCodec.written_append, hout]
      exact List.prefix_append _ _
    · rw [hidle.1] at hphase
      cases hphase
  | closed result =>
    rw [hphase] at hat
    refine ⟨done, hpre, hat.1, hat.2, fun hidle => ?_⟩
    rw [hidle.1] at hphase
    cases hphase

end Conn

namespace ControlServer

variable {σ δ : Type} {codec : ControlCodec} {serve : σ → Request → Response × σ} {move : σ → δ → σ} {s₀ : σ} {s : ControlServer σ δ}

/-- The history is the daemon's, and every connection follows its own part of it. -/
structure Inv (codec : ControlCodec) (serve : σ → Request → Response × σ) (move : σ → δ → σ) (s₀ : σ) (s : ControlServer σ δ) : Prop where
  legal : Serial.Legal serve move s₀ s.history
  state : Serial.replay serve move s₀ s.history = s.handler
  conns : ∀ k (c : Conn), s.conns[k]? = some c → ∃ done, c.Follows codec (Serial.calls k s.history) done
  fresh : ∀ k, s.conns.length ≤ k → Serial.calls k s.history = []

theorem inv_start : (ControlServer.start s₀ : ControlServer σ δ).Inv codec serve move s₀ :=
  ⟨trivial, rfl, fun k c hc => (by cases hc), fun _ _ => rfl⟩

/-- One connection changes, the history stays. -/
theorem Inv.set (h : s.Inv codec serve move s₀) {k : Nat} {c : Conn}
    (hc : ∃ done, c.Follows codec (Serial.calls k s.history) done) :
    ({ s with conns := s.conns.set k c } : ControlServer σ δ).Inv codec serve move s₀ := by
  refine ⟨h.legal, h.state, fun j d hd => ?_, fun j hj => h.fresh j (by simpa using hj)⟩
  by_cases hjk : k = j
  · subst hjk
    rw [List.getElem?_set] at hd
    split at hd
    · split at hd
      · cases hd
        exact hc
      · cases hd
    · exact h.conns k d hd
  · exact h.conns j d (by simpa [List.getElem?_set, hjk] using hd)

theorem Inv.modify (h : s.Inv codec serve move s₀) {k : Nat} {f : Conn → Conn}
    (hf : ∀ c done, c.Follows codec (Serial.calls k s.history) done → (f c).Follows codec (Serial.calls k s.history) done) :
    ({ s with conns := s.conns.modify k f } : ControlServer σ δ).Inv codec serve move s₀ := by
  refine ⟨h.legal, h.state, fun j d hd => ?_, fun j hj => h.fresh j (by simpa using hj)⟩
  rw [List.getElem?_modify] at hd
  obtain ⟨c, hc, rfl⟩ := Option.map_eq_some_iff.1 hd
  obtain ⟨done, hdone⟩ := h.conns j c hc
  split
  · rename_i hkj
    subst hkj
    exact ⟨done, hf c done hdone⟩
  · exact ⟨done, hdone⟩

/-- **A turn of a connection's task.** -/
theorem Inv.turn (h : s.Inv codec serve move s₀) {k : Nat} {c : Conn} (hc : s.conns[k]? = some c) (cut : Option Nat) :
    (s.turn codec serve k cut c).Inv codec serve move s₀ := by
  obtain ⟨done, hdone⟩ := h.conns k c hc
  unfold ControlServer.turn
  cases hphase : c.phase with
  | reading => exact h.set (hdone.read hphase)
  | writing resp => exact h.set ⟨done, hdone.writeResponse hphase cut⟩
  | closed result => exact h
  | waiting req =>
    dsimp only
    refine ⟨?_, ?_, fun j d hd => ?_, fun j hj => ?_⟩
    · rw [Serial.legal_append, h.state]
      exact ⟨h.legal, rfl, trivial⟩
    · rw [Serial.replay_append, h.state]
      rfl
    · rw [Serial.calls_append, Serial.calls_call]
      by_cases hkj : k = j
      · subst hkj
        rw [if_pos rfl]
        obtain ⟨hlt, -⟩ := List.getElem?_eq_some_iff.1 hc
        rw [List.getElem?_set_self hlt] at hd
        cases hd
        exact ⟨done, hdone.handle hphase _⟩
      · rw [if_neg hkj, List.append_nil]
        exact h.conns j d (by simpa [List.getElem?_set, hkj] using hd)
    · obtain ⟨hlt, -⟩ := List.getElem?_eq_some_iff.1 hc
      rw [List.length_set] at hj
      rw [Serial.calls_append, Serial.calls_call, if_neg (by omega), h.fresh j hj]
      rfl

theorem Inv.apply (h : s.Inv codec serve move s₀) (step : ControlStep δ) : (s.apply codec serve move step).Inv codec serve move s₀ := by
  cases step with
  | accept =>
    refine ⟨h.legal, h.state, fun j d hd => ?_, fun j hj => h.fresh j ?_⟩
    · by_cases hj : j < s.conns.length
      · exact h.conns j d ((List.getElem?_append_left hj).symm.trans hd)
      · -- the new connection: nobody has called on it
        have hnew : [Conn.new][j - s.conns.length]? = some d := (List.getElem?_append_right (by omega)).symm.trans hd
        have hcalls : Serial.calls j (s.apply codec serve move .accept).history = [] := h.fresh j (by omega)
        rw [List.mem_singleton.1 (List.mem_of_getElem? hnew), hcalls]
        exact ⟨[], Conn.follows_new⟩
    · exact Nat.le_trans (by simp [ControlServer.apply]) hj
  | arrive k bytes =>
    refine h.modify (fun c done hdone => ?_)
    split
    · exact hdone
    · exact hdone.arrive bytes
  | hangUp k => exact h.modify (fun c done hdone => ⟨hdone.stream, hdone.at_⟩)
  | turn k cut =>
    simp only [ControlServer.apply]
    split
    · exact h
    · rename_i c hc
      exact h.turn hc cut
  | outside d =>
    refine ⟨?_, ?_, fun j c hc => ?_, fun j hj => ?_⟩
    · exact Serial.legal_append.2 ⟨h.legal, trivial, trivial⟩
    · show Serial.replay serve move s₀ (s.history ++ [.change d]) = move s.handler d
      rw [Serial.replay_append, h.state]
      rfl
    · show ∃ done, c.Follows codec (Serial.calls j (s.history ++ [.change d])) done
      rw [Serial.calls_append, Serial.calls_change, List.append_nil]
      exact h.conns j c hc
    · show Serial.calls j (s.history ++ [.change d]) = []
      rw [Serial.calls_append, Serial.calls_change, List.append_nil]
      exact h.fresh j hj

theorem Inv.run (steps : List (ControlStep δ)) : ∀ {s : ControlServer σ δ}, s.Inv codec serve move s₀ →
    (s.run codec serve move steps).Inv codec serve move s₀ := by
  induction steps with
  | nil => exact fun h => h
  | cons step steps ih => exact fun h => ih (h.apply step)

end ControlServer

namespace ControlServer

variable {σ δ : Type} {codec : ControlCodec} {serve : σ → Request → Response × σ} {move : σ → δ → σ}

theorem history_apply (s : ControlServer σ δ) (step : ControlStep δ) : s.history <+: (s.apply codec serve move step).history := by
  cases step with
  | accept => exact List.prefix_rfl
  | arrive k bytes => exact List.prefix_rfl
  | hangUp k => exact List.prefix_rfl
  | outside d => exact List.prefix_append _ _
  | turn k cut =>
    simp only [ControlServer.apply]
    split
    · exact List.prefix_rfl
    · unfold ControlServer.turn
      split
      · exact List.prefix_rfl
      · exact List.prefix_append _ _
      · exact List.prefix_rfl
      · exact List.prefix_rfl

theorem history_run (steps : List (ControlStep δ)) : ∀ s : ControlServer σ δ, s.history <+: (s.run codec serve move steps).history := by
  induction steps with
  | nil => exact fun s => List.prefix_rfl
  | cons step steps ih => exact fun s => (history_apply s step).trans (ih _)

theorem changes_apply (s : ControlServer σ δ) (step : ControlStep δ) :
    Serial.changes (s.apply codec serve move step).history = Serial.changes s.history ++ step.outside?.toList := by
  cases step with
  | accept => exact (List.append_nil _).symm
  | arrive k bytes => exact (List.append_nil _).symm
  | hangUp k => exact (List.append_nil _).symm
  | outside d => exact Serial.changes_append _ _
  | turn k cut =>
    simp only [ControlServer.apply, ControlStep.outside?, Option.toList_none, List.append_nil]
    split
    · rfl
    · unfold ControlServer.turn
      split
      · rfl
      · exact (Serial.changes_append _ _).trans (List.append_nil _)
      · rfl
      · rfl

/-- **The history has what happened outside**, in order. -/
theorem changes_run (steps : List (ControlStep δ)) : ∀ s : ControlServer σ δ,
    Serial.changes (s.run codec serve move steps).history =
      Serial.changes s.history ++ steps.filterMap ControlStep.outside? := by
  induction steps with
  | nil => exact fun s => (List.append_nil _).symm
  | cons step steps ih =>
    intro s
    have hnext := ih (s.apply codec serve move step)
    rw [changes_apply, List.append_assoc] at hnext
    refine hnext.trans (congrArg _ ?_)
    rw [List.filterMap_cons]
    cases step.outside? <;> rfl

end ControlServer

/-- **A daemon answers its connections as if all requests came one after another.**  However the bytes come in, the
connections take turns and the daemon works on in between, there is one history of whole calls, in which every answer is
the handler's in the state its turn found; it grows as the run goes on.  Each connection has in it the requests it sent,
in their order, without one left out before another; their answers go out in the same order, and are all out when the
task waits for more. -/
theorem control_serial {σ δ : Type} (codec : ControlCodec) (serve : σ → Request → Response × σ) (move : σ → δ → σ)
    (s₀ : σ) (steps : List (ControlStep δ)) :
    let s := (ControlServer.start s₀).run codec serve move steps
    Serial.Legal serve move s₀ s.history ∧ Serial.replay serve move s₀ s.history = s.handler ∧
    (∀ steps', steps' <+: steps → ((ControlServer.start s₀).run codec serve move steps').history <+: s.history) ∧
    ∀ (k : Nat) (c : Conn), s.conns[k]? = some c → ∃ done, done <+: bodies REQUEST_MAX c.received ∧
      (Serial.calls k s.history).map Prod.fst = codec.asked done ∧
      c.outbound <+: codec.written (codec.replies done ((Serial.calls k s.history).map Prod.snd)) ∧
      (c.Idle → done = bodies REQUEST_MAX c.received ∧
        c.outbound = codec.written (codec.replies done ((Serial.calls k s.history).map Prod.snd))) := by
  intro s
  have hinv : s.Inv codec serve move s₀ := ControlServer.inv_start.run steps
  refine ⟨hinv.legal, hinv.state, ?_, fun k c hc => ?_⟩
  · rintro steps' ⟨later, rfl⟩
    show _ <+: ((ControlServer.start s₀).run codec serve move (steps' ++ later)).history
    rw [ControlServer.run, ControlServer.run, List.foldl_append]
    exact ControlServer.history_run later _
  · obtain ⟨done, hdone⟩ := hinv.conns k c hc
    exact hdone.answered

/-! ## The client -/

/-- The answer on its connection, once it is there whole, and what reading it gives. -/
def ControlClient.readReply (codec : ControlCodec) (seen : Bytes) : Option (Except String Response) :=
  match head WORD_MAX seen with
  | .whole payload _ => some (codec.parseResponse payload)
  | _                => none

namespace ControlClient

variable {codec : ControlCodec}

theorem readReply_nil : readReply codec [] = none := rfl

theorem readReply_frame {b : Bytes} (hword : b.length < 2 ^ 32) : readReply codec (frame b) = some (codec.parseResponse b) := by
  have hhead := @Frames.head_frame WORD_MAX b (by unfold WORD_MAX; omega) hword []
  rw [List.append_nil] at hhead
  rw [readReply, hhead]

/-- What is read of a frame, or of its beginning, is the whole frame's message. -/
theorem readReply_prefix {b seen : Bytes} {x : Except String Response} (hword : b.length < 2 ^ 32) (hs : seen <+: frame b)
    (h : readReply codec seen = some x) : x = codec.parseResponse b := by
  by_cases heq : seen = frame b
  · rw [heq, readReply_frame hword] at h
    exact (Option.some.inj h).symm
  · unfold readReply at h
    rcases @Frames.head_cut WORD_MAX _ _ hword hs heq with hhead | hhead <;> rw [hhead] at h <;> cases h

end ControlClient

namespace ControlServer

variable {σ δ : Type} {codec : ControlCodec} {serve : σ → Request → Response × σ} {move : σ → δ → σ} {s₀ : σ}
  {s : ControlServer σ δ} {k : Nat} {c : Conn} {req : Request}

/-- **A connection with one request on it**: nothing was taken off it, or the request was, and nothing but its answer goes
out. -/
theorem Inv.once (h : s.Inv codec serve move s₀) (hc : s.conns[k]? = some c)
    (hreq : codec.parseRequest (codec.encodeRequest req) = .ok req) (hword : (codec.encodeRequest req).length < 2 ^ 32)
    (hsent : c.received <+: frame (codec.encodeRequest req)) :
    (Serial.calls k s.history = [] ∧ c.outbound = [] ∧
      (c.Idle → ¬ (c.received = frame (codec.encodeRequest req) ∧ (codec.encodeRequest req).length ≤ REQUEST_MAX))) ∨
    ((codec.encodeRequest req).length ≤ REQUEST_MAX ∧ ∃ resp, Serial.calls k s.history = [(req, resp)] ∧
      c.outbound <+: frame (codec.encodeResponse resp) ∧ (c.Idle → c.outbound = frame (codec.encodeResponse resp))) := by
  obtain ⟨done₀, hdone₀⟩ := h.conns k c hc
  obtain ⟨done, hpre, hasked, hout, hidle⟩ := hdone₀.answered
  rw [Frames.bodies_cut hword hsent] at hpre hidle
  cases done with
  | nil =>
    have hnone : Serial.calls k s.history = [] := List.map_eq_nil_iff.1 hasked
    rw [hnone] at hout
    refine .inl ⟨hnone, List.prefix_nil.1 hout, fun hi hwhole => ?_⟩
    have hdone := (hidle hi).1
    rw [if_pos hwhole] at hdone
    cases hdone
  | cons b bs =>
    split at hpre
    · rename_i hwhole
      obtain ⟨rfl, hbs⟩ := List.cons_prefix_cons.1 hpre
      rw [List.prefix_nil.1 hbs] at hasked hout hidle
      rw [ControlCodec.asked_ok hreq] at hasked
      obtain ⟨⟨req', resp⟩, hone, rfl⟩ := List.map_eq_singleton_iff.1 hasked
      rw [hone, List.map_cons, List.map_nil, ControlCodec.replies_ok hreq, ControlCodec.written_single] at hout hidle
      exact .inr ⟨hwhole.2, resp, hone, hout, fun hi => (hidle hi).2⟩
    · cases List.prefix_nil.1 hpre

/-- **What the client reads** was answered to its request, then. -/
theorem Inv.read (h : s.Inv codec serve move s₀) (hc : s.conns[k]? = some c)
    (hreq : codec.parseRequest (codec.encodeRequest req) = .ok req) (hword : (codec.encodeRequest req).length < 2 ^ 32)
    (hsent : c.received <+: frame (codec.encodeRequest req)) {seen : Bytes} {x : Except String Response}
    (hseen : seen <+: c.outbound) (hread : ControlClient.readReply codec seen = some x) : ∃ pre resp post,
      s.history = pre ++ .call k req resp :: post ∧ Serial.calls k s.history = [(req, resp)] ∧
      (serve (Serial.replay serve move s₀ pre) req).1 = resp ∧
      ((codec.encodeResponse resp).length < 2 ^ 32 → x = codec.parseResponse (codec.encodeResponse resp)) := by
  rcases h.once hc hreq hword hsent with ⟨-, hnothing, -⟩ | ⟨-, resp, hone, hframe, -⟩
  · rw [hnothing] at hseen
    rw [List.prefix_nil.1 hseen, ControlClient.readReply_nil] at hread
    cases hread
  · obtain ⟨pre, post, hsplit⟩ := Serial.exists_of_mem_calls (k := k) (h := s.history)
      (by rw [hone]; exact List.mem_singleton_self _)
    have hlegal := h.legal
    rw [hsplit] at hlegal
    exact ⟨pre, resp, post, hsplit, hone, hlegal.answer,
      fun hsize => ControlClient.readReply_prefix hsize (hseen.trans hframe) hread⟩

end ControlServer

/-- **A call is handled at most once, and exactly once if it is answered.**  A client sends one request on its own
connection, all of it or the beginning, and reads what comes back until it gives up.  The handler sees the request once
or not at all; whatever answer the client reads is the one the handler gave, then; a request that came in whole is
answered once the task is back to waiting; one over the server's limit is never handled. -/
theorem control_call_once {σ δ : Type} (codec : ControlCodec) (serve : σ → Request → Response × σ) (move : σ → δ → σ)
    (s₀ : σ) (steps : List (ControlStep δ)) (k : Nat) (c : Conn)
    (hc : ((ControlServer.start s₀).run codec serve move steps).conns[k]? = some c) (req : Request)
    (hreq : codec.parseRequest (codec.encodeRequest req) = .ok req) (hword : (codec.encodeRequest req).length < 2 ^ 32)
    (hsent : c.received <+: frame (codec.encodeRequest req)) :
    let s := (ControlServer.start s₀).run codec serve move steps
    (Serial.calls k s.history = [] ∨ ∃ resp, Serial.calls k s.history = [(req, resp)]) ∧
    (∀ seen x, seen <+: c.outbound → ControlClient.readReply codec seen = some x → ∃ pre resp post,
      s.history = pre ++ .call k req resp :: post ∧ Serial.calls k s.history = [(req, resp)] ∧
      (serve (Serial.replay serve move s₀ pre) req).1 = resp ∧
      ((codec.encodeResponse resp).length < 2 ^ 32 → x = codec.parseResponse (codec.encodeResponse resp))) ∧
    (c.received = frame (codec.encodeRequest req) → (codec.encodeRequest req).length ≤ REQUEST_MAX → c.Idle →
      ∃ resp, Serial.calls k s.history = [(req, resp)] ∧ ((codec.encodeResponse resp).length < 2 ^ 32 →
        ControlClient.readReply codec c.outbound = some (codec.parseResponse (codec.encodeResponse resp)))) ∧
    (REQUEST_MAX < (codec.encodeRequest req).length → Serial.calls k s.history = [] ∧ c.outbound = []) := by
  intro s
  have hinv : s.Inv codec serve move s₀ := ControlServer.inv_start.run steps
  refine ⟨?_, fun seen x hseen hread => hinv.read hc hreq hword hsent hseen hread, fun hwhole hmax hi => ?_, fun hmax => ?_⟩
  · rcases hinv.once hc hreq hword hsent with ⟨hnone, -, -⟩ | ⟨-, resp, hone, -, -⟩
    · exact .inl hnone
    · exact .inr ⟨resp, hone⟩
  · rcases hinv.once hc hreq hword hsent with ⟨-, -, hnot⟩ | ⟨-, resp, hone, -, hsame⟩
    · exact absurd ⟨hwhole, hmax⟩ (hnot hi)
    · refine ⟨resp, hone, fun hsize => ?_⟩
      rw [hsame hi]
      exact ControlClient.readReply_frame hsize
  · rcases hinv.once hc hreq hword hsent with ⟨hnone, hnothing, -⟩ | ⟨hle, -⟩
    · exact ⟨hnone, hnothing⟩
    · omega

namespace ControlCodec

/-- The JSON of a ping and of its answer. -/
def pingJson : Bytes := Utf8.encode "\x7b\"op\":\"ping\"\x7d".toList

def pongJson : Bytes := Utf8.encode "\x7b\"kind\":\"pong\",\"daemon\":\"receiver\",\"version\":\"0.2.0\"\x7d".toList

def pings : ControlCodec where
  encodeRequest := fun _ => pingJson
  parseRequest := fun b => if b = pingJson then .ok .ping else .error "expected value at line 1 column 1"
  encodeResponse := fun _ => pongJson
  parseResponse := fun b => if b = pongJson then .ok (.pong "receiver" "0.2.0") else .error "expected value at line 1 column 1"

end ControlCodec

/-- Two clients at once, the bytes of the first in two pieces around the second's call. -/
theorem control_call_once_two_clients :
    let serve : Unit → Request → Response × Unit := fun u _ => (.pong "receiver" "0.2.0", u)
    let move : Unit → Unit → Unit := fun u _ => u
    let bytes := frame ControlCodec.pingJson
    let steps : List (ControlStep Unit) := [.accept, .accept, .arrive 0 (bytes.take 5), .turn 0 none, .arrive 1 bytes,
      .turn 1 none, .arrive 0 (bytes.drop 5), .turn 0 none, .turn 1 none, .turn 0 none, .turn 0 none]
    ∃ resp, Serial.calls 0 ((ControlServer.start ()).run .pings serve move steps).history = [(.ping, resp)] := by
  intro serve move bytes steps
  have hconn : ((ControlServer.start ()).run .pings serve move steps).conns[0]? =
      some ⟨bytes, [], false, .reading, frame ControlCodec.pongJson⟩ := by decide +kernel
  obtain ⟨resp, hone, -⟩ := (control_call_once .pings serve move () steps 0 _ hconn .ping rfl (by decide +kernel)
    List.prefix_rfl).2.2.1 rfl (by decide +kernel) ⟨rfl, rfl⟩
  exact ⟨resp, hone⟩

end Parachuter
