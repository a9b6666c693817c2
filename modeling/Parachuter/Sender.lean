import Parachuter.Chunker
import Parachuter.Config
import Parachuter.Queue
import Parachuter.RateLimiter
import Parachuter.Scanner
/-!
# The sender's runtime (`sender/state.rs`)

Each method takes the runtime and returns its result with the runtime it leaves, also when it fails: an error does not
undo what was done before it.  What the runtime asks of the outside is passed in: the payload's files (`files`), what the
clock does while the limiter waits (`delays`) and the socket (`Net`).  `sendNext` gives back the datagram it handed to the
socket; a send whose `acquire` never returns is `blocked`, and so is the turn it belongs to.
-/
namespace Parachuter

open Blob (Bytes)

/-! ## What is around it -/

/-- The network: which destinations parse as a socket address, and what the socket answers. -/
structure Net where
  parses  : String → UInt16 → Bool
  deliver : Bytes → String → UInt16 → Except IoError Unit

/-- `UdpSender::send_to`. -/
def Net.sendTo (net : Net) (bytes : Bytes) (dest : String) (destPort : UInt16) : Except Error Unit :=
  if net.parses dest destPort then
    match net.deliver bytes dest destPort with
    | .ok ()   => .ok ()
    | .error e => .error (.io e)
  else .error (.badConfig "invalid destination: invalid socket address syntax")

/-- A network that takes every datagram. -/
def Net.Takes (net : Net) : Prop := ∀ bytes dest destPort, net.sendTo bytes dest destPort = .ok ()

/-- The payload side of the sends: its files, the clock, the network.  A wait that is begun in the bucket `rl` is delayed
by `delays rl`; no two waits are begun in one bucket, so this is any clock. -/
structure Payload where
  files         : Text → Option Bytes
  delays        : RateLimiter → Nat → ℚ
  net           : Net
  delays_nonneg : ∀ rl k, 0 ≤ delays rl k

/-- The longest path the system takes, its terminator included. -/
def PATH_MAX : Nat := 4096

/-- Only paths the system takes can be opened. -/
def Payload.PathsShort (payload : Payload) : Prop :=
  ∀ path b, payload.files path = some b → (Utf8.encode path).length < PATH_MAX

/-- A payload whose clock adds nothing to a wait and whose network takes everything. -/
def Payload.ideal (files : Text → Option Bytes) : Payload where
  files := files
  delays := fun _ _ => 0
  net := ⟨fun _ _ => true, fun _ _ _ => .ok ()⟩
  delays_nonneg := fun _ _ => le_refl 0

/-- `std::fs::metadata` of a path. -/
structure FileMeta where
  isFile    : Bool
  len       : UInt64
  createdAt : DateTime
  deriving DecidableEq, Repr

structure LinkOverride where
  activeLink : Option String
  chunkSize  : Option Nat
  maxKbps    : Option UInt64
  linkIp     : Option String
  linkPort   : Option UInt16
  deriving DecidableEq, Repr

namespace LinkOverride

/-- The link asked for, if any, is declared. -/
def linkKnown (o : LinkOverride) (c : Config) : Bool := o.activeLink.all (fun key => (c.links.lookup key).isSome)

/-- The chunk size asked for, if any, is in range. -/
def sizeOk (o : LinkOverride) : Bool := o.chunkSize.all (fun c => decide (MIN_CHUNK_SIZE ≤ c ∧ c ≤ MAX_CHUNK_SIZE))

end LinkOverride

structure SubmitAck where
  fileId    : FileId
  numChunks : UInt32
  fileSize  : UInt64
  deriving DecidableEq, Repr

structure SenderRuntime where
  cfg                : LiveConfig
  ledger             : Ledger
  queue              : PacketQueue
  state              : SenderState
  overrideActiveLink : Option String
  overrideChunkSize  : Option Nat
  overrideMaxKbps    : Option UInt64
  overrideLinkIp     : Option String
  overrideLinkPort   : Option UInt16
  rateLimiter        : RateLimiter
  lastRecheck        : Int
  lastStatusDump     : Int

/-- One second of the monotonic clock, in nanoseconds. -/
def SECOND : Nat := 1000000000

/-- `Instant::elapsed().as_secs()`. -/
def elapsedSecs (now last : Int) : Nat := (now - last).toNat / SECOND

namespace SenderRuntime

/-! ## Effective settings -/

def currentChunkSize (rt : SenderRuntime) : Nat := rt.overrideChunkSize.getD rt.cfg.current.sender.chunkSize

/-- The link of a key; an unknown key falls back to the first link there is. -/
def linkOf (cfg : LiveConfig) (key : String) : Link :=
  match cfg.current.links.lookup key with
  | some link => link
  | none      => (cfg.current.links.head cfg.links_ne_nil).2

/-- Key, address, port and rate in force. -/
def currentLink (rt : SenderRuntime) : String × String × UInt16 × UInt64 :=
  let key := rt.overrideActiveLink.getD rt.cfg.current.sender.activeLink
  let link := linkOf rt.cfg key
  (key, rt.overrideLinkIp.getD link.ip, rt.overrideLinkPort.getD link.port, rt.overrideMaxKbps.getD link.maxKbps)

/-- `new`, at the readings `now` and `nowSecs` of the monotonic clock in nanoseconds and in seconds. -/
def new (cfg : LiveConfig) (ledger : Ledger) (now : Int) (nowSecs : ℚ) : SenderRuntime where
  cfg := cfg
  ledger := ledger
  queue := .new
  state := cfg.current.sender.initialState
  overrideActiveLink := none
  overrideChunkSize := none
  overrideMaxKbps := none
  overrideLinkIp := none
  overrideLinkPort := none
  rateLimiter := .new (linkOf cfg cfg.current.sender.activeLink).maxKbps nowSecs
  lastRecheck := now - 3600 * SECOND
  lastStatusDump := now

/-! ## Control requests -/

/-- The checks of `apply_override` and the fields it sets, in order; a failed check leaves the fields set before it. -/
def applyOverride (rt : SenderRuntime) (o : LinkOverride) : Except Error Unit × SenderRuntime :=
  if o.linkKnown rt.cfg.current = false then (.error (.badConfig ("unknown link `" ++ o.activeLink.getD "" ++ "`")), rt)
  else
    let rt := { rt with overrideActiveLink := o.activeLink.orElse (fun _ => rt.overrideActiveLink) }
    if o.sizeOk = false then (.error (.badChunkSize (o.chunkSize.getD 0)), rt)
    else
      let rt := { rt with
        overrideChunkSize := o.chunkSize.orElse (fun _ => rt.overrideChunkSize)
        overrideMaxKbps := o.maxKbps.orElse (fun _ => rt.overrideMaxKbps)
        overrideLinkIp := o.linkIp.orElse (fun _ => rt.overrideLinkIp)
        overrideLinkPort := o.linkPort.orElse (fun _ => rt.overrideLinkPort) }
      (.ok (), { rt with rateLimiter := rt.rateLimiter.setKbps rt.currentLink.2.2.2 })

def setState (rt : SenderRuntime) (new : SenderState) : SenderRuntime :=
  match new with
  | .manual | .paused | .debug => { rt with queue := rt.queue.clear, state := new }
  | .auto                      => { rt with state := new }

def flush (rt : SenderRuntime) : SenderRuntime := { rt with queue := rt.queue.clear }

/-- Stamp the ledger and queue the manifest, then the data. -/
def pushFullFile (rt : SenderRuntime) (fileId : FileId) (fileName : Text) (total : UInt32) (interrupt : Bool)
    (utc : DateTime) : SenderRuntime :=
  let itemData := WorkItem.data fileId ⟨0, total⟩
  let itemManifest := WorkItem.manifest fileId fileName
  { rt with
    ledger := rt.ledger.markQueued fileId utc
    queue := if interrupt then (rt.queue.pushFront itemData).pushFront itemManifest
      else (rt.queue.pushBack itemManifest).pushBack itemData }

def unknownFile (fileId : FileId) : Error := .badConfig ("unknown file_id " ++ toString fileId)

/-- A negative `start` asks for the whole file. -/
def enqueue (rt : SenderRuntime) (fileId : FileId) (start : Int32) (count : UInt32) (interrupt : Bool) (utc : DateTime) :
    Except Error Unit × SenderRuntime :=
  match rt.ledger.get fileId with
  | none     => (.error (unknownFile fileId), rt)
  | some rec =>
    let payloadSize := rt.currentChunkSize - HEADER_LEN
    let total := chunksForSize rec.fileSize.toNat payloadSize
    if start < 0 then (.ok (), rt.pushFullFile rec.fileId rec.fileName total interrupt utc)
    else
      let s := start.toUInt32
      if total ≤ s then (.error (.outOfRange s total), rt)
      else
        let count := min (max count 1) (total - s)
        let item := WorkItem.retransmit rec.fileId ⟨s, count⟩
        (.ok (), { rt with queue := if interrupt then rt.queue.pushFront item else rt.queue.pushBack item })

def resendName (rt : SenderRuntime) (fileId : FileId) : Except Error Unit × SenderRuntime :=
  match rt.ledger.get fileId with
  | none     => (.error (unknownFile fileId), rt)
  | some rec => (.ok (), { rt with queue := rt.queue.pushFront (.manifest rec.fileId rec.fileName) })

/-- Register a file under its path and queue it whole. -/
def registerAndPush (rt : SenderRuntime) (name : Text) (size : UInt64) (createdAt : DateTime) (interrupt : Bool)
    (utc : DateTime) : Except Error SubmitAck × SenderRuntime :=
  let s := rt.cfg.current.sender
  let chunkSize := rt.currentChunkSize
  match rt.ledger.upsertFile name size createdAt s.imagesPerDark s.imagesPerFlat s.imagesPerBias (UInt32.ofNat chunkSize) with
  | .error e         => (.error e, rt)
  | .ok (id, ledger) =>
    let total := chunksForSize size.toNat (chunkSize - HEADER_LEN)
    (.ok ⟨id, total, size⟩, ({ rt with ledger := ledger }).pushFullFile id name total interrupt utc)

/-- The path made absolute under the working directory, if that can be read. -/
def absolute (cwd : Option Text) (path : Text) : Text :=
  if path.head? = some '/' then path
  else
    match cwd with
    | none   => path
    | some d => if d = [] ∨ d.getLast? = some '/' then d ++ path else d ++ '/' :: path

def submit (rt : SenderRuntime) (metadata : Text → Except IoError FileMeta) (cwd : Option Text) (path : Text)
    (interrupt : Bool) (utc : DateTime) : Except Error SubmitAck × SenderRuntime :=
  match metadata path with
  | .error .notFound => (.error (.notFound (.text path)), rt)
  | .error e         => (.error (.io e), rt)
  | .ok info         =>
    if info.isFile = false then (.error (.badConfig (String.ofList path ++ " is not a regular file")), rt)
    else rt.registerAndPush (absolute cwd path) info.len info.createdAt interrupt utc

/-! ## Sending -/

/-- How a send or a turn goes no further: with an error, or in a wait of the limiter that never ends. -/
inductive Halt
  | failed (e : Error)
  | blocked
  deriving DecidableEq, Repr

/-- What a send comes to: its result, the runtime it leaves and the datagram it handed over. -/
structure Out where
  result   : Except Halt Bool
  rt       : SenderRuntime
  datagram : Option Bytes

/-- Wait for the tokens and send. -/
def emit (rt : SenderRuntime) (payload : Payload) (bytes : Bytes) : Out :=
  let (_, ip, port, _) := rt.currentLink
  match rt.rateLimiter.acquired bytes.length (payload.delays rt.rateLimiter) with
  | none    => ⟨.error .blocked, rt, none⟩
  | some rl =>
    let rt := { rt with rateLimiter := rl }
    match payload.net.sendTo bytes ip port with
    | .error e => ⟨.error (.failed e), rt, none⟩
    | .ok ()   => ⟨.ok true, rt, some bytes⟩

/-- One chunk of a range, for data and retransmits alike: a file that is gone is marked so, and the rest of the range
goes back to the front. -/
def sendRange (crc : Bytes → UInt32) (payload : Payload) (packet : Chunker → UInt32 → Except Error Packet)
    (item : RequestedRange → WorkItem) (rt : SenderRuntime) (fileId : FileId) (range : RequestedRange) : Out :=
  match rt.ledger.get fileId with
  | none     => ⟨.error (.failed (unknownFile fileId)), rt, none⟩
  | some rec =>
    match Chunker.open payload.files rec.fileName fileId rt.currentChunkSize with
    | .error (.notFound _) => ⟨.ok false, { rt with ledger := rt.ledger.markGone rec.fileName }, none⟩
    | .error e             => ⟨.error (.failed e), rt, none⟩
    | .ok chunker          =>
      match packet chunker range.start with
      | .error e => ⟨.error (.failed e), rt, none⟩
      | .ok pkt  =>
        let out := rt.emit payload (pkt.encode crc)
        match out.result with
        | .error _ => out
        | .ok _    =>
          if 1 < range.count then
            { out with rt := { out.rt with
              queue := out.rt.queue.pushFront (item range.rest) } }
          else out

def sendManifest (crc : Bytes → UInt32) (payload : Payload) (rt : SenderRuntime) (fileId : FileId) (fileName : Text) : Out :=
  match Chunker.open payload.files fileName fileId rt.currentChunkSize with
  | .error e    => ⟨.error (.failed e), rt, none⟩
  | .ok chunker => rt.emit payload ((chunker.manifestPacket fileName).encode crc)

def sendItem (crc : Bytes → UInt32) (payload : Payload) (rt : SenderRuntime) : WorkItem → Out
  | .manifest id name    => sendManifest crc payload rt id name
  | .data id range       => sendRange crc payload Chunker.dataPacket (.data id) rt id range
  | .retransmit id range => sendRange crc payload Chunker.retransmitPacket (.retransmit id) rt id range

/-- The runtime once an item is taken, with the rate in force brought to the bucket. -/
def taking (rt : SenderRuntime) (q : PacketQueue) : SenderRuntime :=
  { rt with queue := q, rateLimiter := rt.rateLimiter.setKbps rt.currentLink.2.2.2 }

def sendNext (crc : Bytes → UInt32) (payload : Payload) (rt : SenderRuntime) : Out :=
  if rt.state = .paused then ⟨.ok false, rt, none⟩
  else
    match rt.queue.popFront with
    | none           => ⟨.ok false, rt, none⟩
    | some (item, q) => sendItem crc payload (rt.taking q) item

/-! ## The main loop -/

/-- The directories scanned in the current state. -/
def scanDirs (rt : SenderRuntime) : List Text :=
  if rt.state = .debug then rt.cfg.current.sender.priorityDirsDebug else rt.cfg.current.sender.priorityDirs

def scanForWork (rt : SenderRuntime) (view : Nat → Text → DirView) (utc : DateTime) : Except Error Unit × SenderRuntime :=
  let s := rt.cfg.current.sender
  match Scanner.nextCandidate view rt.scanDirs s.includeExtensions s.skipExtensions rt.ledger with
  | .error e     => (.error e, rt)
  | .ok none     => (.ok (), rt)
  | .ok (some c) =>
    match rt.registerAndPush c.path c.size c.createdAt false utc with
    | (.error e, rt) => (.error e, rt)
    | (.ok _, rt)    => (.ok (), rt)

/-- What the outside does during one turn of the main loop: `dump` is what writing the status file answers. -/
structure Turn where
  payload : Payload
  view    : Nat → Text → DirView
  now     : Int
  utc     : DateTime
  dump    : Except Error Unit

/-- The scan, when its state and its period call for one. -/
def topUp (t : Turn) (rt : SenderRuntime) : Except Error Unit × SenderRuntime :=
  if (rt.state = .auto ∨ rt.state = .debug) ∧
      rt.cfg.current.sender.recheckPeriodSecs.toNat ≤ elapsedSecs t.now rt.lastRecheck then
    scanForWork { rt with lastRecheck := t.now } t.view t.utc
  else (.ok (), rt)

/-- The status file, when its period is over. -/
def dumpStatus (t : Turn) (rt : SenderRuntime) : Except Error Unit × SenderRuntime :=
  if rt.cfg.current.sender.statusDumpPeriodSecs.toNat ≤ elapsedSecs t.now rt.lastStatusDump then
    (t.dump, { rt with lastStatusDump := t.now })
  else (.ok (), rt)

/-- One turn: send, or else look for work and write the status file. -/
def tick (crc : Bytes → UInt32) (t : Turn) (rt : SenderRuntime) : Out :=
  let out := sendNext crc t.payload rt
  match out.result with
  | .error _  => out
  | .ok true  => out
  | .ok false =>
    match topUp t out.rt with
    | (.error e, rt) => ⟨.error (.failed e), rt, out.datagram⟩
    | (.ok (), rt)   =>
      match dumpStatus t rt with
      | (.error e, rt) => ⟨.error (.failed e), rt, out.datagram⟩
      | (.ok (), rt)   => ⟨.ok false, rt, out.datagram⟩

end SenderRuntime

end Parachuter
