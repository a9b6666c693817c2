import Parachuter.Proto
/-!
# Configuration (`config.rs`), as far as the daemons' decisions read it

Maps keyed by link name are lists in key order, as a `BTreeMap` iterates.  A `LiveConfig` holds a config that passed
`validate`, which is what loading, reloading and overriding check.
-/
namespace Parachuter

structure Link where
  ip      : String
  port    : UInt16
  maxKbps : UInt64
  deriving DecidableEq, Repr

/-- Bandwidth budget for one uplink. -/
structure LinkBudget where
  maxInFlight : UInt32
  minPeriodMs : UInt64
  deriving DecidableEq, Repr

inductive SenderState
  | auto
  | manual
  | paused
  | debug
  deriving DecidableEq, Repr

structure SenderConfig where
  chunkSize            : Nat
  activeLink           : String
  priorityDirs         : List Text
  priorityDirsDebug    : List Text
  includeExtensions    : List Text
  skipExtensions       : List Text
  initialState         : SenderState
  imagesPerDark        : UInt32
  imagesPerFlat        : UInt32
  imagesPerBias        : UInt32
  recheckPeriodSecs    : UInt64
  statusDumpPeriodSecs : UInt64
  deriving DecidableEq, Repr

structure CleanerConfig where
  links               : List (String × LinkBudget)
  activeLink          : String
  reconcilePeriodSecs : UInt64
  reconcileGraceSecs  : UInt64
  dedupTtlSecs        : UInt64
  deriving DecidableEq, Repr

structure Config where
  sender  : SenderConfig
  cleaner : CleanerConfig
  links   : List (String × Link)
  deriving DecidableEq, Repr

namespace Config

def validate (c : Config) : Except Error Unit :=
  if (c.links.lookup c.sender.activeLink).isNone then
    .error (.badConfig ("sender.active_link `" ++ c.sender.activeLink ++ "` not declared in [links]"))
  else if (c.cleaner.links.lookup c.cleaner.activeLink).isNone then
    .error (.badConfig ("cleaner.active_link `" ++ c.cleaner.activeLink ++ "` has no budget in [cleaner.links]"))
  else if ¬ (MIN_CHUNK_SIZE ≤ c.sender.chunkSize ∧ c.sender.chunkSize ≤ MAX_CHUNK_SIZE) then
    .error (.badChunkSize c.sender.chunkSize)
  else .ok ()

/-- `Config::default`. -/
def default : Config where
  sender := {
    chunkSize := DEFAULT_CHUNK_SIZE
    activeLink := "pilot"
    priorityDirs := ["/data/parachuter/queue".toList]
    priorityDirsDebug := []
    includeExtensions := []
    skipExtensions := []
    initialState := .auto
    imagesPerDark := 0
    imagesPerFlat := 0
    imagesPerBias := 0
    recheckPeriodSecs := 100
    statusDumpPeriodSecs := 6 * 60 * 60 }
  cleaner := {
    links := [("los", ⟨8, 500⟩), ("pilot", ⟨8, 500⟩), ("tdrss", ⟨8, 500⟩)]
    activeLink := "pilot"
    reconcilePeriodSecs := 6 * 60 * 60
    reconcileGraceSecs := 3 * 60 * 60
    dedupTtlSecs := 300 }
  links := [("los", ⟨"239.255.0.1", 41410, 250⟩), ("pilot", ⟨"192.168.98.24", 41410, 1000⟩),
    ("tdrss", ⟨"239.255.0.2", 41410, 30⟩)]

/-- **What a valid config has**: both active links, and a chunk size in range. -/
theorem validate_ok {c : Config} (h : c.validate = .ok ()) :
    (∃ l, c.links.lookup c.sender.activeLink = some l) ∧ (∃ b, c.cleaner.links.lookup c.cleaner.activeLink = some b) ∧
    MIN_CHUNK_SIZE ≤ c.sender.chunkSize ∧ c.sender.chunkSize ≤ MAX_CHUNK_SIZE := by
  unfold validate at h
  split at h
  · cases h
  rename_i h1
  split at h
  · cases h
  rename_i h2
  split at h
  · cases h
  rename_i h3
  rw [Option.isNone_iff_eq_none] at h1 h2
  exact ⟨Option.ne_none_iff_exists'.1 h1, Option.ne_none_iff_exists'.1 h2, not_not.1 h3⟩

theorem validate_default : default.validate = .ok () := by decide

end Config

/-- A config that passed validation. -/
structure LiveConfig where
  current : Config
  valid   : current.validate = .ok ()

namespace LiveConfig

/-- `override_with`, and a reload: an invalid config is refused and the old one stays. -/
def overrideWith (_ : LiveConfig) (new : Config) : Except Error LiveConfig :=
  match h : new.validate with
  | .ok ()   => .ok ⟨new, h⟩
  | .error e => .error e

def default : LiveConfig := ⟨Config.default, Config.validate_default⟩

theorem chunkSize_ok (c : LiveConfig) :
    MIN_CHUNK_SIZE ≤ c.current.sender.chunkSize ∧ c.current.sender.chunkSize ≤ MAX_CHUNK_SIZE :=
  (Config.validate_ok c.valid).2.2

theorem links_ne_nil (c : LiveConfig) : c.current.links ≠ [] := by
  obtain ⟨⟨l, hl⟩, -⟩ := Config.validate_ok c.valid
  intro h
  rw [h] at hl
  cases hl

end LiveConfig

end Parachuter
