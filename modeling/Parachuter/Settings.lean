import Parachuter.Vanished
import Parachuter.Watch
/-!
# Settings — what is in force, whoever wrote it

A config comes from a file, from `override_with` or from a reload, and each checks it; the control socket's overrides are
kept beside it, field by field, and win.  So the chunk size in force is always in range and there is always a link; but
the address, port and rate set by an earlier override stay in force when the link is changed, and a link stays set when
the chunk size that came with it is rejected.
-/
namespace Parachuter

open Blob (Bytes)

/-- `LiveConfig::load`. -/
def LiveConfig.load (toml : Text → Except Error Config) (path : Text) (file : Except IoError Text) :
    Except Error LiveConfig :=
  match h : Config.load toml path file with
  | .ok cfg  => .ok ⟨cfg, Config.validate_load h⟩
  | .error e => .error e

theorem LiveConfig.load_ok {toml : Text → Except Error Config} {path : Text} {file : Except IoError Text} {cfg : Config}
    (h : Config.load toml path file = .ok cfg) : load toml path file = .ok ⟨cfg, Config.validate_load h⟩ := by
  unfold load
  split
  · rename_i cfg' h'
    rw [h] at h'
    cases h'
    rfl
  · rename_i e h'
    rw [h] at h'
    cases h'

namespace SenderRuntime

/-! ## The calls that would panic -/

/-- `new` with its `expect`: nothing, if the active link is not declared. -/
def new? (cfg : LiveConfig) (ledger : Ledger) (now : Int) (nowSecs : ℚ) : Option SenderRuntime :=
  (cfg.current.links.lookup cfg.current.sender.activeLink).map (fun link =>
    { cfg := cfg, ledger := ledger, queue := .new, state := cfg.current.sender.initialState, overrideActiveLink := none,
      overrideChunkSize := none, overrideMaxKbps := none, overrideLinkIp := none, overrideLinkPort := none,
      rateLimiter := .new link.maxKbps nowSecs, lastRecheck := now - 3600 * SECOND, lastStatusDump := now })

/-- `current_link` with its `expect`: nothing, if there is no link at all. -/
def currentLink? (rt : SenderRuntime) : Option (String × String × UInt16 × UInt64) :=
  let key := rt.overrideActiveLink.getD rt.cfg.current.sender.activeLink
  ((rt.cfg.current.links.lookup key).or (rt.cfg.current.links.head?.map Prod.snd)).map (fun link =>
    (key, rt.overrideLinkIp.getD link.ip, rt.overrideLinkPort.getD link.port, rt.overrideMaxKbps.getD link.maxKbps))

theorem new?_eq (cfg : LiveConfig) (ledger : Ledger) (now : Int) (nowSecs : ℚ) :
    new? cfg ledger now nowSecs = some (new cfg ledger now nowSecs) := by
  obtain ⟨⟨link, hlink⟩, -⟩ := Config.validate_ok cfg.valid
  unfold new? new linkOf
  rw [hlink]
  rfl

theorem currentLink?_eq (rt : SenderRuntime) : rt.currentLink? = some rt.currentLink := by
  unfold currentLink? currentLink linkOf
  dsimp only
  cases rt.cfg.current.links.lookup (rt.overrideActiveLink.getD rt.cfg.current.sender.activeLink) with
  | some link => rfl
  | none =>
    rw [Option.none_or, List.head?_eq_some_head rt.cfg.links_ne_nil]
    rfl

end SenderRuntime

/-! ## Every writer of the settings -/

/-- The reload thread, `override_with`, and the sender's own operations, the control socket's overrides among them. -/
inductive SettingsOp
  | reload (file : Except IoError Text)
  | overrideWith (new : Config)
  | sender (op : SenderOp)

namespace SettingsOp

variable (crc : Bytes → UInt32) (toml : Text → Except Error Config) (path : Text)

def apply (rt : SenderRuntime) : SettingsOp → SenderRuntime
  | .reload file      => { rt with cfg := rt.cfg.reload toml path file }
  | .overrideWith new =>
    match rt.cfg.overrideWith new with
    | .ok cfg  => { rt with cfg := cfg }
    | .error _ => rt
  | .sender op        => op.apply crc rt

def run (rt : SenderRuntime) (ops : List SettingsOp) : SenderRuntime := ops.foldl (apply crc toml path) rt

/-- The sender at its start, from the config file. -/
def start (file : Except IoError Text) (ledger : Ledger) (now : Int) (nowSecs : ℚ) : Except Error SenderRuntime :=
  (LiveConfig.load toml path file).map (fun cfg => .new cfg ledger now nowSecs)

variable {crc toml path}

theorem wf_apply {rt : SenderRuntime} (h : rt.Wf) (op : SettingsOp) : (op.apply crc toml path rt).Wf := by
  cases op with
  | reload file => exact ⟨h.known, h.size⟩
  | overrideWith new =>
    unfold apply
    dsimp only
    split
    · exact ⟨h.known, h.size⟩
    · exact h
  | sender op => exact h.step crc op

theorem wf_run : ∀ (ops : List SettingsOp) {rt : SenderRuntime}, rt.Wf → (run crc toml path rt ops).Wf
  | [], _, h        => h
  | op :: ops, _, h => wf_run ops (wf_apply h op)

end SettingsOp

theorem Chunker.open_size_ok {files : List Char → Option Bytes} {name : List Char} {id : FileId} {chunkSize : Nat}
    (hok : MIN_CHUNK_SIZE ≤ chunkSize ∧ chunkSize ≤ MAX_CHUNK_SIZE) (c : Nat) :
    Chunker.open files name id chunkSize ≠ .error (.badChunkSize c) := by
  cases hf : files name with
  | none =>
    rw [Chunker.open_none hok hf]
    exact fun h => by cases h
  | some file =>
    unfold Chunker.open
    rw [if_neg (not_not.2 hok), hf]
    exact fun h => by cases h

/-- **What is in force can always be used.**  Started from a file, and whatever reloads of any file contents,
`override_with`s and requests come then, accepted or rejected: the chunk size is in range and leaves room for a payload,
so that no subtraction wraps, no division is by zero and no open fails for the size, and neither `expect` fires. -/
theorem settings_usable (crc : Bytes → UInt32) (toml : Text → Except Error Config) (path : Text)
    (file : Except IoError Text) (ledger : Ledger) (now : Int) (nowSecs : ℚ) (rt₀ : SenderRuntime)
    (hstart : SettingsOp.start toml path file ledger now nowSecs = .ok rt₀) (ops : List SettingsOp) :
    let rt := SettingsOp.run crc toml path rt₀ ops
    (MIN_CHUNK_SIZE ≤ rt.currentChunkSize ∧ rt.currentChunkSize ≤ MAX_CHUNK_SIZE) ∧
    HEADER_LEN ≤ rt.currentChunkSize ∧ rt.currentChunkSize - HEADER_LEN ≠ 0 ∧
    (∀ (files : List Char → Option Bytes) (name : List Char) (id : FileId) (c : Nat),
      Chunker.open files name id rt.currentChunkSize ≠ .error (.badChunkSize c)) ∧
    (∀ (ledger : Ledger) (now : Int) (nowSecs : ℚ), SenderRuntime.new? rt.cfg ledger now nowSecs ≠ none) ∧
    rt.currentLink? ≠ none := by
  intro rt
  have hwf : rt₀.Wf := by
    unfold SettingsOp.start at hstart
    cases hload : LiveConfig.load toml path file with
    | error e =>
      rw [hload] at hstart
      cases hstart
    | ok cfg =>
      rw [hload] at hstart
      cases hstart
      exact SenderRuntime.Wf.new cfg ledger now nowSecs
  have hsize : MIN_CHUNK_SIZE ≤ rt.currentChunkSize ∧ rt.currentChunkSize ≤ MAX_CHUNK_SIZE :=
    (@SettingsOp.wf_run crc toml path ops rt₀ hwf).chunkSize_ok
  have hmin : MIN_CHUNK_SIZE ≤ rt.currentChunkSize := hsize.1
  unfold MIN_CHUNK_SIZE at hmin
  refine ⟨hsize, by omega, by omega, fun files name id c => Chunker.open_size_ok hsize c, fun ledger now nowSecs => ?_, ?_⟩
  · rw [SenderRuntime.new?_eq]
    exact Option.some_ne_none _
  · rw [rt.currentLink?_eq]
    exact Option.some_ne_none _

namespace LinkOverride

/-- An override of the link alone. -/
def toLink (key : String) : LinkOverride := ⟨some key, none, none, none, none⟩

end LinkOverride

theorem Config.file_append_ne (chunkSize : String) (links : List String) {more : List String} (h : more ≠ []) :
    file chunkSize (links ++ more) ≠ file chunkSize links := by
  intro heq
  unfold file at heq
  rw [← List.append_assoc, List.flatMap_append, List.append_right_eq_self, List.flatMap_eq_nil_iff] at heq
  obtain ⟨line, hline⟩ := List.exists_mem_of_ne_nil more h
  exact List.append_ne_nil_of_right_ne_nil _ (List.cons_ne_nil _ _) (heq line hline)

/-- A link chosen by override is taken away by a reload; the first link there is takes its place. -/
theorem settings_usable_link_gone :
    let noLos : Config := { Config.default with links := [("pilot", ⟨"192.168.98.24", 41410, 1000⟩)] }
    let allLinks := Config.file "chunk_size = 16192" (Config.pilotTable ++ Config.multicastTables)
    let pilotOnly := Config.file "chunk_size = 16192" Config.pilotTable
    let toml : Text → Except Error Config := fun s =>
      if s = allLinks then .ok .default else if s = pilotOnly then .ok noLos else .error .toml
    let rt := SettingsOp.run crc32 toml [] (.new .default .empty 0 0)
      [.sender (.applyOverride (.toLink "los")), .reload (.ok pilotOnly)]
    SettingsOp.start toml [] (.ok allLinks) .empty 0 0 = .ok (.new .default .empty 0 0) ∧
    rt.overrideActiveLink = some "los" ∧ rt.cfg.current = noLos ∧ rt.currentLink? ≠ none := by
  intro noLos allLinks pilotOnly toml rt
  have hall : Config.load toml [] (.ok allLinks) = .ok .default := Config.load_ok (if_pos rfl) Config.validate_default
  have hpilot : Config.load toml [] (.ok pilotOnly) = .ok noLos := by
    refine Config.load_ok ?_ (by decide)
    have hne : pilotOnly ≠ allLinks := (Config.file_append_ne _ _ (by decide)).symm
    exact (if_neg hne).trans (if_pos rfl)
  have hstart : SettingsOp.start toml [] (.ok allLinks) .empty 0 0 = .ok (.new .default .empty 0 0) := by
    unfold SettingsOp.start
    rw [LiveConfig.load_ok hall]
    rfl
  clear_value toml pilotOnly
  refine ⟨hstart, rfl, LiveConfig.reload_ok hpilot, ?_⟩
  exact (settings_usable crc32 toml [] (.ok allLinks) .empty 0 0 (.new .default .empty 0 0) hstart
    [.sender (.applyOverride (.toLink "los")), .reload (.ok pilotOnly)]).2.2.2.2.2

/-! ## Changing the link -/

theorem SenderRuntime.applyOverride_toLink {rt : SenderRuntime} {key : String} {link : Link}
    (hlink : rt.cfg.current.links.lookup key = some link) :
    (rt.applyOverride (.toLink key)).1 = .ok () ∧
    (rt.applyOverride (.toLink key)).2.currentLink = (key, rt.overrideLinkIp.getD link.ip,
      rt.overrideLinkPort.getD link.port, rt.overrideMaxKbps.getD link.maxKbps) := by
  have hknown : (LinkOverride.toLink key).linkKnown rt.cfg.current = true := by
    show (rt.cfg.current.links.lookup key).isSome = true
    rw [hlink]
    rfl
  unfold applyOverride
  rw [if_neg (by rw [hknown]; decide)]
  refine ⟨rfl, ?_⟩
  show (key, rt.overrideLinkIp.getD (linkOf rt.cfg key).ip, rt.overrideLinkPort.getD (linkOf rt.cfg key).port,
    rt.overrideMaxKbps.getD (linkOf rt.cfg key).maxKbps) = _
  unfold linkOf
  rw [hlink]

theorem getD_eq_iff {α : Type} (o : Option α) (a : α) : o.getD a = a ↔ o = none ∨ o = some a := by
  cases o with
  | none => simp
  | some b => simp

/-- **When changing the link changes everything**: exactly when no override of the address, the port or the rate is left
from before, or only one to the link's own value. -/
theorem switch_link_iff (rt : SenderRuntime) (key : String) (link : Link)
    (hlink : rt.cfg.current.links.lookup key = some link) :
    (rt.applyOverride (.toLink key)).2.currentLink = (key, link.ip, link.port, link.maxKbps) ↔
      (rt.overrideLinkIp = none ∨ rt.overrideLinkIp = some link.ip) ∧
      (rt.overrideLinkPort = none ∨ rt.overrideLinkPort = some link.port) ∧
      (rt.overrideMaxKbps = none ∨ rt.overrideMaxKbps = some link.maxKbps) := by
  rw [(SenderRuntime.applyOverride_toLink hlink).2, ← getD_eq_iff, ← getD_eq_iff, ← getD_eq_iff, Prod.mk.injEq,
    Prod.mk.injEq, Prod.mk.injEq]
  exact ⟨fun h => h.2, fun h => ⟨rfl, h⟩⟩

/-- The rate is set to 30 kbps, and then the link is changed to the one that has that rate. -/
theorem switch_link_same_rate :
    let rt := ((SenderRuntime.new .default .empty 0 0).applyOverride ⟨none, none, some 30, none, none⟩).2
    rt.overrideMaxKbps = some 30 ∧ (rt.applyOverride (.toLink "tdrss")).2.currentLink = ("tdrss", "239.255.0.2", 41410, 30) :=
  ⟨by rfl, (switch_link_iff ((SenderRuntime.new .default .empty 0 0).applyOverride ⟨none, none, some 30, none, none⟩).2 "tdrss"
    ⟨"239.255.0.2", 41410, 30⟩ rfl).2 ⟨.inl rfl, .inl rfl, .inr rfl⟩⟩

/-- **The rate of another link**: the pilot link is set to 800 kbps, then the link is changed to the slow one.  The
request is accepted, and the slow link of 30 kbps is used at 800. -/
theorem switch_link_keeps_rate :
    let rt := ((SenderRuntime.new .default .empty 0 0).applyOverride ⟨none, none, some 800, none, none⟩).2
    (rt.applyOverride (.toLink "tdrss")).1 = .ok () ∧
    rt.cfg.current.links.lookup "tdrss" = some ⟨"239.255.0.2", 41410, 30⟩ ∧
    (rt.applyOverride (.toLink "tdrss")).2.currentLink = ("tdrss", "239.255.0.2", 41410, 800) := by
  intro rt
  exact ⟨by rfl, by decide, by decide⟩

/-! ## A rejected override -/

namespace SenderRuntime

/-- The five overrides, the bucket, and what is in force are the same. -/
structure SameSettings (rt rt' : SenderRuntime) : Prop where
  activeLink  : rt'.overrideActiveLink = rt.overrideActiveLink
  chunkSize   : rt'.overrideChunkSize = rt.overrideChunkSize
  maxKbps     : rt'.overrideMaxKbps = rt.overrideMaxKbps
  linkIp      : rt'.overrideLinkIp = rt.overrideLinkIp
  linkPort    : rt'.overrideLinkPort = rt.overrideLinkPort
  rateLimiter : rt'.rateLimiter = rt.rateLimiter
  inForce     : rt'.currentLink = rt.currentLink ∧ rt'.currentChunkSize = rt.currentChunkSize

/-- The link is set before the chunk size is checked. -/
structure HalfApplies (rt : SenderRuntime) (o : LinkOverride) : Prop where
  known   : o.linkKnown rt.cfg.current = true
  badSize : o.sizeOk = false
  named   : o.activeLink ≠ none
  changed : o.activeLink ≠ rt.overrideActiveLink

theorem applyOverride_unknown {rt : SenderRuntime} {o : LinkOverride} (h : o.linkKnown rt.cfg.current = false) :
    rt.applyOverride o = (.error (.badConfig ("unknown link `" ++ o.activeLink.getD "" ++ "`")), rt) := by
  unfold applyOverride
  rw [if_pos h]

theorem applyOverride_badSize {rt : SenderRuntime} {o : LinkOverride} (hknown : o.linkKnown rt.cfg.current = true)
    (hsize : o.sizeOk = false) : rt.applyOverride o = (.error (.badChunkSize (o.chunkSize.getD 0)),
      { rt with overrideActiveLink := o.activeLink.orElse (fun _ => rt.overrideActiveLink) }) := by
  unfold applyOverride
  rw [if_neg (by rw [hknown]; decide), if_pos hsize]

theorem applyOverride_ok {rt : SenderRuntime} {o : LinkOverride} (hknown : o.linkKnown rt.cfg.current = true)
    (hsize : o.sizeOk = true) : (rt.applyOverride o).1 = .ok () := by
  unfold applyOverride
  rw [if_neg (by rw [hknown]; decide)]
  dsimp only
  rw [if_neg (by rw [hsize]; decide)]

theorem orElse_eq_iff {α : Type} (a b : Option α) : a.orElse (fun _ => b) = b ↔ a = none ∨ a = b := by
  cases a with
  | none => simp
  | some x => simp

theorem rejected_iff (rt : SenderRuntime) (o : LinkOverride) :
    (∀ e, (rt.applyOverride o).1 = .error e → rt.SameSettings (rt.applyOverride o).2) ↔ ¬ rt.HalfApplies o := by
  cases hknown : o.linkKnown rt.cfg.current with
  | false =>
    rw [applyOverride_unknown hknown]
    refine ⟨fun _ h => ?_, fun _ _ _ => ⟨rfl, rfl, rfl, rfl, rfl, rfl, rfl, rfl⟩⟩
    rw [h.known] at hknown
    cases hknown
  | true =>
    cases hsize : o.sizeOk with
    | true =>
      refine ⟨fun _ h => ?_, fun _ e he => ?_⟩
      · rw [h.badSize] at hsize
        cases hsize
      · rw [applyOverride_ok hknown hsize] at he
        cases he
    | false =>
      rw [applyOverride_badSize hknown hsize]
      constructor
      · intro hsame h
        rcases (orElse_eq_iff _ _).1 (hsame _ rfl).activeLink with hnone | hkept
        · exact h.named hnone
        · exact h.changed hkept
      · intro h e _
        have hkept : o.activeLink.orElse (fun _ => rt.overrideActiveLink) = rt.overrideActiveLink := by
          rw [orElse_eq_iff]
          by_contra hne
          exact h ⟨hknown, hsize, fun hn => hne (.inl hn), fun hc => hne (.inr hc)⟩
        rw [hkept]
        exact ⟨rfl, rfl, rfl, rfl, rfl, rfl, rfl, rfl⟩

end SenderRuntime

namespace SettingsOp

variable (crc : Bytes → UInt32) (toml : Text → Except Error Config) (path : Text)

/-- **When rejected overrides have no effect**: in any run, each one that is answered by an error leaves all settings
exactly as they were, if and only if none of the run's overrides changes the link and has a bad chunk size. -/
theorem rejected_override_iff (rt₀ : SenderRuntime) (ops : List SettingsOp) :
    (∀ before o after, ops = before ++ .sender (.applyOverride o) :: after →
      let rt := run crc toml path rt₀ before
      ∀ e, (rt.applyOverride o).1 = .error e → rt.SameSettings (rt.applyOverride o).2) ↔
      ∀ before o after, ops = before ++ .sender (.applyOverride o) :: after →
        ¬ (run crc toml path rt₀ before).HalfApplies o := by
  constructor
  · intro h before o after hops
    exact (SenderRuntime.rejected_iff _ o).1 (h before o after hops)
  · intro h before o after hops
    exact (SenderRuntime.rejected_iff _ o).2 (h before o after hops)

/-- **A link and a bad chunk size**: the override is answered by an error, and the slow link is in force. -/
theorem rejected_override_changes_link :
    let rt := run crc32 (fun _ => .ok .default) [] (.new .default .empty 0 0) []
    let o : LinkOverride := ⟨some "tdrss", some 100000, none, none, none⟩
    (rt.applyOverride o).1 = .error (.badChunkSize 100000) ∧
    rt.overrideActiveLink = none ∧ (rt.applyOverride o).2.overrideActiveLink = some "tdrss" ∧
    rt.currentLink ≠ (rt.applyOverride o).2.currentLink ∧
    (rt.applyOverride o).2.currentLink = ("tdrss", "239.255.0.2", 41410, 30) ∧
    ¬ rt.SameSettings (rt.applyOverride o).2 := by
  intro rt o
  refine ⟨by rfl, by rfl, by rfl, by decide, by decide, fun h => ?_⟩
  cases h.activeLink

end SettingsOp

end Parachuter
