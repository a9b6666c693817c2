import Parachuter.Config
/-!
# Watch — the thread that reloads the config (`Config::load`, `LiveConfig::watch`)

The thread waits five seconds at a time for a change of the file and loads the file at each.  The wait's time-out is an
`Err` like a lost watcher's, so `while let Ok` ends at the first five seconds without a change.  What the TOML parser
makes of a text is a parameter.
-/
namespace Parachuter

/-! ## Loading -/

/-- `Config::load`, from what reading the file at `path` gave. -/
def Config.load (toml : Text → Except Error Config) (path : Text) (file : Except IoError Text) : Except Error Config :=
  match file with
  | .error .notFound => .error (.notFound (.text path))
  | .error e         => .error (.io e)
  | .ok s            =>
    match toml s with
    | .error e => .error e
    | .ok cfg  =>
      match cfg.validate with
      | .error e => .error e
      | .ok ()   => .ok cfg

theorem Config.validate_load {toml : Text → Except Error Config} {path : Text} {file : Except IoError Text} {cfg : Config}
    (h : load toml path file = .ok cfg) : cfg.validate = .ok () := by
  unfold load at h
  split at h
  · cases h
  · cases h
  split at h
  · cases h
  split at h
  · cases h
  · rename_i hv
    cases h
    exact hv

theorem Config.load_ok {toml : Text → Except Error Config} {path s : Text} {cfg : Config} (h : toml s = .ok cfg)
    (hv : cfg.validate = .ok ()) : load toml path (.ok s) = .ok cfg := by
  unfold load
  dsimp only
  rw [h]
  dsimp only
  rw [hv]

namespace LiveConfig

variable (toml : Text → Except Error Config) (path : Text)

/-- One turn of the loop: a file that does not load leaves the config as it is. -/
def reload (live : LiveConfig) (file : Except IoError Text) : LiveConfig :=
  match h : Config.load toml path file with
  | .ok cfg  => ⟨cfg, Config.validate_load h⟩
  | .error _ => live

/-- A wake-up of the loop: a change of the file, with what reading it then gives, or five seconds without one. -/
inductive Wakeup
  | event (file : Except IoError Text)
  | timeout

/-- `watch`, over the wake-ups: `recv_timeout` returns `Err` at a time-out, and the loop ends. -/
def watch (live : LiveConfig) : List Wakeup → LiveConfig
  | []                => live
  | .timeout :: _     => live
  | .event file :: ws => watch (live.reload toml path file) ws

/-- The last valid config the file held at an event, or `cfg` before there is one. -/
def latest (cfg : Config) : List Wakeup → Config
  | []                => cfg
  | .timeout :: ws    => latest cfg ws
  | .event file :: ws =>
    match Config.load toml path file with
    | .ok new  => latest new ws
    | .error _ => latest cfg ws

/-- **Hot reload**: after every event the config in force is the one the file holds, or unchanged if it holds none. -/
def Reloads (live : LiveConfig) (ws : List Wakeup) : Prop :=
  ∀ before file after, ws = before ++ .event file :: after →
    (∀ cfg, Config.load toml path file = .ok cfg → (live.watch toml path (before ++ [.event file])).current = cfg) ∧
    ((∀ cfg, Config.load toml path file ≠ .ok cfg) →
      (live.watch toml path (before ++ [.event file])).current = (live.watch toml path before).current)

section

variable {toml : Text → Except Error Config} {path : Text} {live : LiveConfig}

theorem reload_ok {file : Except IoError Text} {cfg : Config} (h : Config.load toml path file = .ok cfg) :
    (live.reload toml path file).current = cfg := by
  unfold reload
  split
  · rename_i cfg' h'
    rw [h] at h'
    cases h'
    rfl
  · rename_i e h'
    rw [h] at h'
    cases h'

theorem reload_error {file : Except IoError Text} (h : ∀ cfg, Config.load toml path file ≠ .ok cfg) :
    live.reload toml path file = live := by
  unfold reload
  split
  · rename_i cfg h'
    exact absurd h' (h cfg)
  · rfl

theorem watch_timeout : ∀ (before : List Wakeup) (live : LiveConfig) (after : List Wakeup),
    live.watch toml path (before ++ .timeout :: after) = live.watch toml path before
  | [], _, _                         => rfl
  | .timeout :: _, _, _              => rfl
  | .event file :: before, live, after => watch_timeout before (live.reload toml path file) after

theorem watch_event {file : Except IoError Text} : ∀ (before : List Wakeup) (live : LiveConfig), .timeout ∉ before →
    live.watch toml path (before ++ [.event file]) = (live.watch toml path before).reload toml path file
  | [], _, _                     => rfl
  | .timeout :: _, _, h          => absurd List.mem_cons_self h
  | .event f :: before, live, h  =>
    watch_event before (live.reload toml path f) (fun hmem => h (List.mem_cons_of_mem _ hmem))

theorem watch_current : ∀ (before : List Wakeup) (live : LiveConfig), .timeout ∉ before →
    (live.watch toml path before).current = latest toml path live.current before
  | [], _, _                    => rfl
  | .timeout :: _, _, h         => absurd List.mem_cons_self h
  | .event f :: before, live, h => by
    rw [watch, watch_current before _ (fun hmem => h (List.mem_cons_of_mem _ hmem)), latest]
    cases hload : Config.load toml path f with
    | ok cfg => rw [reload_ok hload]
    | error e => rw [reload_error (fun cfg hcfg => by rw [hload] at hcfg; cases hcfg)]

end

end LiveConfig

open LiveConfig (Wakeup)

/-- **Hot reload works exactly while nothing new comes after a time-out**: every event after the first time-out, at which
the file holds a valid config, holds the one already in force at that time-out. -/
theorem watch_reloads_iff (toml : Text → Except Error Config) (path : Text) (live : LiveConfig) (ws : List Wakeup) :
    live.Reloads toml path ws ↔ ∀ before after file cfg, ws = before ++ .timeout :: after → .timeout ∉ before →
      .event file ∈ after → Config.load toml path file = .ok cfg → cfg = LiveConfig.latest toml path live.current before := by
  constructor
  · intro h before after file cfg hws hfirst hmem hload
    obtain ⟨mid, rest, rfl⟩ := List.append_of_mem hmem
    have hcur := (h (before ++ .timeout :: mid) file rest (by rw [hws]; simp)).1 cfg hload
    rw [List.append_assoc, List.cons_append, LiveConfig.watch_timeout, LiveConfig.watch_current _ _ hfirst] at hcur
    exact hcur.symm
  · intro h before file after hws
    by_cases hmem : .timeout ∈ before
    · -- the loop has ended: what is in force is what was at the first time-out
      obtain ⟨pre, mid, rfl, hfirst⟩ := List.eq_append_cons_of_mem hmem
      rw [List.append_assoc, List.cons_append, LiveConfig.watch_timeout, LiveConfig.watch_timeout]
      refine ⟨fun cfg hload => ?_, fun _ => rfl⟩
      rw [LiveConfig.watch_current _ _ hfirst]
      exact (h pre (mid ++ .event file :: after) file cfg (by rw [hws]; simp) hfirst (by simp) hload).symm
    · rw [LiveConfig.watch_event _ _ hmem]
      refine ⟨fun cfg hload => LiveConfig.reload_ok hload, fun hno => ?_⟩
      rw [LiveConfig.reload_error hno]

/-! ## A file of the default config -/

namespace Config

/-- The default config written out, with a line for the chunk size and the tables of the links as they are given. -/
def file (chunkSize : String) (links : List String) : Text :=
  (["[sender]", "bind_ip = \"0.0.0.0\"", "bind_port = 34646", chunkSize, "active_link = \"pilot\"",
    "ledger_path = \"/var/lib/parachuter/ledger.sqlite\"", "priority_dirs = [\"/data/parachuter/queue\"]",
    "control_socket = \"/run/parachuter/sender.sock\"", "initial_state = \"auto\"", "images_per_dark = 0",
    "images_per_flat = 0", "images_per_bias = 0", "recheck_period_secs = 100", "status_dump_period_secs = 21600",
    "[receiver]", "bind_ip = \"0.0.0.0\"", "bind_port = 41410", "holding_dir = \"/var/lib/parachuter/holding\"",
    "final_dir = \"/var/lib/parachuter/downloads\"", "control_socket = \"/run/parachuter/receiver.sock\"",
    "[cleaner]", "holding_dir = \"/var/lib/parachuter/holding\"", "final_dir = \"/var/lib/parachuter/downloads\"",
    "sender_control_socket = \"/run/parachuter/sender.sock\"", "active_link = \"pilot\"",
    "state_path = \"/var/lib/parachuter/cleaner-state.json\"", "run_period_secs = 60", "dedup_ttl_secs = 300",
    "control_socket = \"/run/parachuter/cleaner.sock\"",
    "[cleaner.links.los]", "max_in_flight = 8", "min_period_ms = 500",
    "[cleaner.links.pilot]", "max_in_flight = 8", "min_period_ms = 500",
    "[cleaner.links.tdrss]", "max_in_flight = 8", "min_period_ms = 500"] ++ links).flatMap (fun line => line.toList ++ ['\n'])

def pilotTable : List String := ["[links.pilot]", "ip = \"192.168.98.24\"", "port = 41410", "max_kbps = 1000"]

def multicastTables : List String :=
  ["[links.los]", "ip = \"239.255.0.1\"", "port = 41410", "max_kbps = 250", "[links.tdrss]", "ip = \"239.255.0.2\"",
    "port = 41410", "max_kbps = 30"]

end Config

/-- **An edit after five quiet seconds is not seen.** -/
theorem watch_misses_edit :
    let edited : Config := { Config.default with sender := { Config.default.sender with chunkSize := 1024 } }
    let text := Config.file "chunk_size = 1024" (Config.pilotTable ++ Config.multicastTables)
    let toml : Text → Except Error Config := fun s => if s = text then .ok edited else .error .toml
    edited.validate = .ok () ∧
    (LiveConfig.default.watch toml [] [.timeout, .event (.ok text)]).current = Config.default ∧
    ¬ LiveConfig.default.Reloads toml [] [.timeout, .event (.ok text)] := by
  intro edited text toml
  have hvalid : edited.validate = .ok () := by decide
  have hload : Config.load toml [] (.ok text) = .ok edited := Config.load_ok (if_pos rfl) hvalid
  refine ⟨hvalid, rfl, fun h => ?_⟩
  have hcur := (h [.timeout] (.ok text) [] rfl).1 edited hload
  have hsize := congrArg (fun c : Config => c.sender.chunkSize) hcur
  revert hsize
  decide

end Parachuter
