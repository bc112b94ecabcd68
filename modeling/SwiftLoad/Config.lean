import Mathlib.Algebra.Order.Field.Rat
import Mathlib.Tactic.NormNum

/-!
# Engine configuration

The constants and settings of `config.rs` that the engine's decisions depend on.  Durations are
natural numbers of nanoseconds and the governor's ratios are rational numbers.  Settings that
only tune the transport (timeouts) or the user interface are left out.
-/

namespace SwiftLoad

/-- The largest `u64`. -/
def u64Max : ℕ := 2 ^ 64 - 1

/-- `u64::saturating_add`. -/
def satAdd (a b : ℕ) : ℕ := min (a + b) u64Max

/-- A duration, or an instant since some origin, in nanoseconds. -/
abbrev Nanos := ℕ

/-- `Duration::from_millis`. -/
def millis (n : ℕ) : Nanos := n * 1000000

/-- `Duration::from_secs`. -/
def secs (n : ℕ) : Nanos := n * 1000000000

/-- Never segment below this. -/
def minSegment : ℕ := 2 * 1024 * 1024

/-- Below this size, segmentation is a net loss. -/
def smallFileThreshold : ℕ := 4 * 1024 * 1024

/-- Bytes written between durability checkpoints. -/
def checkpointBytes : ℕ := 8 * 1024 * 1024

/-- How often to checkpoint when few bytes arrive. -/
def checkpointInterval : Nanos := secs 5

/-- How much of each completed span to give back after an unclean shutdown. -/
def paranoidRewind : ℕ := 1024 * 1024

/-- What to do when the final name is taken. -/
inductive CollisionPolicy
  /-- `file (2).ext`, Explorer-style. -/
  | rename
  | overwrite
  | ask
deriving DecidableEq, Repr

/-- `Settings`, with the defaults of `impl Default for Settings`. -/
structure Settings where
  /-- Ceiling for one download's connection count. -/
  maxConnsPerDownload : ℕ := 8
  /-- Ceiling across all downloads. -/
  maxTotalConns : ℕ := 24
  /-- Ceiling per remote host. -/
  maxConnsPerHost : ℕ := 8
  /-- Let the governor pick the connection count. -/
  adaptiveConcurrency : Bool := true
  maxRetriesPerSegment : ℕ := 8
  maxRedirects : ℕ := 10
  /-- Refuse https to http redirects. -/
  blockInsecureRedirect : Bool := true
  /-- Give back a margin of each span after a crash, in case fsync lied. -/
  paranoidRecovery : Bool := true
  /-- Hash the finished file. -/
  hashOnComplete : Bool := true
  collisionPolicy : CollisionPolicy := .rename
  userAgent : String := "SwiftLoad/0.1.0 (+https://github.com/priyanktomer/AiGen)"
deriving DecidableEq, Repr

/-- `RequestSpec`: per-request knobs. -/
structure RequestSpec where
  headers : List (String × String) := []
  cookies : Option String := none
  referer : Option String := none
  userAgent : Option String := none
  proxy : Option String := none
deriving DecidableEq, Repr

/-- Governor tuning, with the defaults of `impl Default for GovernorConfig`. -/
structure GovernorConfig where
  /-- Discarded after a concurrency change, to skip TCP slow-start and TLS. -/
  warmup : Nanos := millis 400
  /-- Measurement window at each level. -/
  dwell : Nanos := millis 1200
  /-- Aggregate improvement needed to keep an added level. -/
  gainThreshold : ℚ := 15 / 100
  /-- Minimum gap between opportunistic re-probes in steady state. -/
  reprobeInterval : Nanos := secs 30
  /-- Ratio of per-connection throughput below which the pipe counts as saturated. -/
  saturationRatio : ℚ := 6 / 10
  maxConns : ℕ := 32
deriving DecidableEq, Repr

/-- The default settings are conservative and agree with each other. -/
theorem settings_default_consistent :
    ({} : Settings).maxConnsPerDownload ≤ 8 ∧
      ({} : Settings).maxConnsPerDownload ≤ ({} : Settings).maxTotalConns ∧
      ({} : Settings).maxConnsPerHost ≤ ({} : Settings).maxConnsPerDownload ∧
      ({} : Settings).maxConnsPerDownload ≤ ({} : GovernorConfig).maxConns ∧
      ({} : Settings).paranoidRecovery = true ∧ ({} : Settings).blockInsecureRedirect = true := by
  decide

theorem satAdd_eq {a b : ℕ} (h : a + b ≤ u64Max) : satAdd a b = a + b := min_eq_left h

end SwiftLoad
