import SwiftLoad.Config

/-!
# Adaptive concurrency

`task/governor.rs`.  `Governor.observe` takes a measurement and returns a decision; it has no
clock of its own.  The source's floating-point rates are rational numbers here, and a duration
in seconds is kept in nanoseconds, so that rates are bytes per nanosecond.
-/

namespace SwiftLoad

/-- Data each connection should move before its throughput is worth believing. -/
def warmupBytesPerConn : ℕ := 512 * 1024

/-- Data each connection should move during a measurement window. -/
def dwellBytesPerConn : ℕ := 2 * 1024 * 1024

/-- Shortest window that still yields a meaningful rate. -/
def minSample : Nanos := millis 150

/-- The floor of a shortened measurement window. -/
def minDwell : Nanos := millis 250

/-- One observation, assembled by the download task. -/
structure Sample where
  now : Nanos
  bytesTotal : ℕ
  conns : ℕ
  errorsSinceLast : ℕ
  /-- `some retryAfter` when the server asked us to slow down. -/
  rateLimited : Option (Option Nanos)
  diskBackpressure : Bool
  remainingBytes : ℕ
  probeToken : Bool
deriving DecidableEq, Repr

/-- What the download task is told to do. -/
inductive Decision
  | hold
  | spawnTo (k : ℕ)
  | retireTo (k : ℕ)
  | backOff (conns : ℕ) (wait : Nanos)
  | releaseToken (k : ℕ)
deriving DecidableEq, Repr

/-- `Phase`. -/
inductive GovernorPhase
  | baseline
  | ramp
  | hold
  | backOff
deriving DecidableEq, Repr

/-- Why the governor stopped growing. -/
inductive StopReason
  | stillRamping
  | saturated
  | serverPenalised
  | rateLimited
  | diskBound
  | notEnoughWork
  | reachedCeiling
deriving DecidableEq, Repr

/-- A measurement window. -/
structure Window where
  started : Nanos
  startBytes : ℕ
deriving DecidableEq, Repr

/-- The governor. -/
structure Governor where
  cfg : GovernorConfig
  phase : GovernorPhase
  /-- Target connection count. -/
  k : ℕ
  /-- Hard ceiling learned at runtime. -/
  ceiling : ℕ
  /-- Best (level, throughput) measured so far. -/
  best : Option (ℕ × ℚ)
  /-- Throughput at the level we are comparing against. -/
  baseline : Option (ℕ × ℚ)
  window : Option Window
  changedAt : Nanos
  bytesAtChange : ℕ
  /-- Midpoint retry after a failed doubling. -/
  midCandidate : Option ℕ
  lastProbe : Nanos
  reprobeInterval : Nanos
  consecutiveBackpressure : ℕ
  lastBytes : ℕ
  recentBackpressure : Bool
  stopReason : StopReason
  saturationDetected : Bool
deriving DecidableEq, Repr

namespace Governor

/-- `Governor::new`. -/
def new (cfg : GovernorConfig) (k0 : ℕ) (now : Nanos) : Governor where
  cfg := cfg
  phase := .baseline
  k := max k0 1
  ceiling := cfg.maxConns
  best := none
  baseline := none
  window := none
  changedAt := now
  bytesAtChange := 0
  midCandidate := none
  lastProbe := now
  reprobeInterval := cfg.reprobeInterval
  consecutiveBackpressure := 0
  lastBytes := 0
  recentBackpressure := false
  stopReason := .stillRamping
  saturationDetected := false

/-- `max_by_work`: there is no point spawning a connection that would get less than a minimum
segment. -/
def maxByWork (remaining : ℕ) : ℕ := max (remaining / minSegment) 1

/-- `change_to`. -/
def changeTo (k : ℕ) (now : Nanos) (g : Governor) : Governor :=
  { g with k := k, changedAt := now, window := none, bytesAtChange := g.lastBytes }

/-- `try_grow`: attempt the next level up, subject to every limit. -/
def tryGrow (s : Sample) (g : Governor) : Governor × Decision :=
  if s.probeToken = false then ({ g with phase := .hold }, .hold)
  else if g.recentBackpressure then
    ({ g with stopReason := .diskBound, phase := .hold, lastProbe := s.now }, .releaseToken g.k)
  else
    let byWork := maxByWork s.remainingBytes
    let limit := min (min g.ceiling g.cfg.maxConns) byWork
    let next := min (g.k * 2) limit
    if next ≤ g.k then
      ({ g with
          stopReason := if byWork ≤ g.k then .notEnoughWork else .reachedCeiling
          phase := .hold
          lastProbe := s.now }, .releaseToken g.k)
    else (({ g with phase := .ramp } : Governor).changeTo next s.now, .spawnTo next)

/-- The part of `judge` that records why a level did not pay. -/
def noteLoss (gain perConn : ℚ) (g : Governor) : Governor :=
  if perConn ≤ g.cfg.saturationRatio then
    { g with
      saturationDetected := true
      stopReason := if gain < -5 / 100 then .serverPenalised else .saturated }
  else { g with stopReason := .saturated }

/-- The end of `judge`: try the midpoint once, then settle at the last level that paid. -/
def stepBack (prevK : ℕ) (prevRate : ℚ) (level : ℕ) (rate : ℚ) (s : Sample) (g : Governor) :
    Governor × Decision :=
  match g.midCandidate with
  | some mid =>
    -- we were measuring the midpoint: keep whichever level measured best
    let winner := if prevRate < rate then mid else prevK
    let settle := max (min winner g.ceiling) 1
    (({ g with
        midCandidate := none
        phase := .hold
        lastProbe := s.now
        ceiling := min g.ceiling (max (level - 1) settle) } : Governor).changeTo settle s.now,
      .releaseToken settle)
  | none =>
    let mid := (prevK + level) / 2
    if prevK < mid ∧ mid < level then
      (({ g with midCandidate := some mid } : Governor).changeTo mid s.now, .retireTo mid)
    else
      let settle := max (min prevK g.ceiling) 1
      (({ g with
          ceiling := min g.ceiling (max (level - 1) settle)
          phase := .hold
          lastProbe := s.now } : Governor).changeTo settle s.now, .releaseToken settle)

/-- The gain of a level over the one before it. -/
def gainOver (prevRate rate : ℚ) : ℚ := if 0 < prevRate then rate / prevRate - 1 else 1

/-- The per-connection throughput ratio: near 1 when each new connection is as productive as the
old ones. -/
def perConnRatio (prevK : ℕ) (prevRate : ℚ) (level : ℕ) (rate : ℚ) : ℚ :=
  if 0 < prevRate ∧ 0 < level then (rate / level) / (prevRate / prevK) else 1

/-- `judge`: decide whether the level just measured earned its extra connections. -/
def judge (level : ℕ) (rate : ℚ) (s : Sample) (g : Governor) : Governor × Decision :=
  match g.baseline with
  | none => ({ g with baseline := some (level, rate) } : Governor).tryGrow s
  | some (prevK, prevRate) =>
    if g.cfg.gainThreshold ≤ gainOver prevRate rate then
      -- it paid: adopt this level and try for more
      ({ g with baseline := some (level, rate), midCandidate := none } : Governor).tryGrow s
    else
      (g.noteLoss (gainOver prevRate rate) (perConnRatio prevK prevRate level rate)).stepBack
        prevK prevRate level rate s

/-- `effective_dwell`: how long this measurement window should run. -/
def effectiveDwell (elapsed : Nanos) (moved remaining : ℕ) (g : Governor) : ℚ :=
  if elapsed < minDwell ∨ moved = 0 then g.cfg.dwell
  else
    let rate : ℚ := moved / elapsed
    min (max (remaining / rate / 6) minDwell) g.cfg.dwell

/-- The part of `measure` that closes a window. -/
def closeWindow (rate : ℚ) (now : Nanos) (g : Governor) : Governor :=
  { g with
    window := none
    changedAt := now
    best := if g.best.all fun b : ℕ × ℚ => b.2 < rate then some (g.k, rate) else g.best }

/-- `measure`: accumulate a measurement window, then decide once it is complete. -/
def measure (s : Sample) (g : Governor) : Governor × Decision :=
  if g.window = none ∧ s.bytesTotal - g.bytesAtChange < warmupBytesPerConn * g.k ∧
      s.now - g.changedAt < g.cfg.warmup then
    (g, .hold)
  else
    let w := g.window.getD ⟨s.now, s.bytesTotal⟩
    let g := { g with window := some w }
    let elapsed := s.now - w.started
    let moved := s.bytesTotal - w.startBytes
    if elapsed < minSample ∨
        ((elapsed : ℚ) < g.effectiveDwell elapsed moved s.remainingBytes ∧
          moved < dwellBytesPerConn * g.k) then
      (g, .hold)
    else
      let rate : ℚ := moved / elapsed
      let level := g.k
      let g := g.closeWindow rate s.now
      match g.phase with
      | .baseline =>
        ({ g with baseline := some (level, rate), phase := .ramp } : Governor).tryGrow s
      | .ramp => g.judge level rate s
      | _ => (g, .hold)

/-- `maybe_reprobe`: in steady state, occasionally check whether conditions improved. -/
def maybeReprobe (s : Sample) (g : Governor) : Governor × Decision :=
  if g.saturationDetected ∨ g.stopReason = .rateLimited then (g, .hold)
  else if s.probeToken = false ∨ 0 < s.errorsSinceLast then (g, .hold)
  else if s.now - g.lastProbe < g.reprobeInterval then (g, .hold)
  else if s.remainingBytes < minSegment * 4 then (g, .hold)
  else
    let limit := min (min g.ceiling g.cfg.maxConns) (maxByWork s.remainingBytes)
    let next := min (g.k + 2) limit
    if next ≤ g.k then (g, .hold)
    else
      (({ g with
          reprobeInterval := g.reprobeInterval * 2
          baseline := g.best
          phase := .ramp } : Governor).changeTo next s.now, .spawnTo next)

/-- The part of `observe` that counts samples under backpressure. -/
def noteBackpressure (pressed : Bool) (g : Governor) : Governor :=
  { g with
    recentBackpressure := pressed
    consecutiveBackpressure := if pressed then g.consecutiveBackpressure + 1 else 0 }

/-- `observe`: feed one observation and get the next action. -/
def observe (s : Sample) (g : Governor) : Governor × Decision :=
  let g := { g with lastBytes := s.bytesTotal }
  match s.rateLimited with
  | some retryAfter =>
    let k := max (g.k / 2) 1
    (({ g with
        ceiling := k
        saturationDetected := true
        stopReason := .rateLimited
        phase := .backOff } : Governor).changeTo k s.now, .backOff k (retryAfter.getD (secs 1)))
  | none =>
    let g := g.noteBackpressure s.diskBackpressure
    if s.diskBackpressure ∧ 6 ≤ g.consecutiveBackpressure then
      ({ g with ceiling := g.k, stopReason := .diskBound, phase := .hold }, .hold)
    else if 2 ≤ s.errorsSinceLast ∧ 1 < g.k then
      let k := g.k - 1
      (({ g with ceiling := min g.ceiling g.k, phase := .hold } : Governor).changeTo k s.now,
        .retireTo k)
    else
      match g.phase with
      | .backOff => ({ g with phase := .hold }, .hold)
      | .baseline | .ramp => g.measure s
      | .hold => g.maybeReprobe s

/-- `endgame_target`: with little work left, a swarm of connections just adds tail latency. -/
def endgameTarget (remaining : ℕ) (g : Governor) : Option ℕ :=
  if remaining < minSegment then some 1
  else if remaining < minSegment * 2 then some (min 2 g.k)
  else none

/-! ### What a decision can be -/

/-- What every step of the governor guarantees: it keeps its configuration and a positive target,
and it asks for more connections only within the configured maximum and the work that is left. -/
structure Sound (g : Governor) (s : Sample) (r : Governor × Decision) : Prop where
  cfg : r.1.cfg = g.cfg
  pos : 0 < r.1.k
  spawn : ∀ n, r.2 = .spawnTo n →
    g.k < n ∧ n ≤ g.cfg.maxConns ∧ n ≤ maxByWork s.remainingBytes

variable {g : Governor} {s : Sample}

theorem Sound.of_eq {g' : Governor} {r : Governor × Decision} (h : g'.Sound s r)
    (hcfg : g'.cfg = g.cfg) (hk : g'.k = g.k) : g.Sound s r :=
  ⟨h.cfg.trans hcfg, h.pos, fun n hn => hcfg ▸ hk ▸ h.spawn n hn⟩

/-- A decision that spawns nothing is sound. -/
theorem sound_of_ne_spawn {r : Governor × Decision} (hcfg : r.1.cfg = g.cfg) (hk : 0 < r.1.k)
    (hd : ∀ n, r.2 ≠ .spawnTo n) : g.Sound s r :=
  ⟨hcfg, hk, fun n hn => absurd hn (hd n)⟩

theorem sound_hold {g' : Governor} (hcfg : g'.cfg = g.cfg) (hk : 0 < g'.k) :
    g.Sound s (g', .hold) := sound_of_ne_spawn hcfg hk fun _ h => nomatch h

theorem tryGrow_sound (hk : 0 < g.k) : g.Sound s (g.tryGrow s) := by
  simp only [tryGrow]
  split_ifs with h₁ h₂ h₃ h₄
  · exact sound_hold rfl hk
  · exact sound_of_ne_spawn rfl hk fun _ h => nomatch h
  · exact sound_of_ne_spawn rfl hk fun _ h => nomatch h
  · exact sound_of_ne_spawn rfl hk fun _ h => nomatch h
  · have hlt := Nat.not_le.1 h₃
    refine ⟨rfl, hk.trans hlt, ?_⟩
    intro n hn
    obtain rfl : _ = n := Decision.spawnTo.inj hn
    exact ⟨hlt, by omega, by omega⟩

theorem stepBack_sound (prevK : ℕ) (prevRate : ℚ) (level : ℕ) (rate : ℚ) :
    g.Sound s (g.stepBack prevK prevRate level rate s) := by
  unfold stepBack
  split
  · exact sound_of_ne_spawn rfl (lt_max_of_lt_right Nat.one_pos) fun _ h => nomatch h
  · simp only
    split_ifs with h
    · exact sound_of_ne_spawn rfl ((Nat.zero_le _).trans_lt h.1) fun _ h => nomatch h
    · exact sound_of_ne_spawn rfl (lt_max_of_lt_right Nat.one_pos) fun _ h => nomatch h

theorem judge_sound (hk : 0 < g.k) (level : ℕ) (rate : ℚ) : g.Sound s (g.judge level rate s) := by
  unfold judge
  split
  · exact Sound.of_eq (tryGrow_sound (by exact hk)) rfl rfl
  · have hnote : ∀ gain perConn, (g.noteLoss gain perConn).cfg = g.cfg ∧
        (g.noteLoss gain perConn).k = g.k := by
      intro gain perConn
      unfold noteLoss
      split_ifs <;> exact ⟨rfl, rfl⟩
    split_ifs
    · exact Sound.of_eq (tryGrow_sound (by exact hk)) rfl rfl
    · exact (stepBack_sound _ _ _ _).of_eq (hnote _ _).1 (hnote _ _).2

theorem measure_sound (hk : 0 < g.k) : g.Sound s (g.measure s) := by
  simp only [measure]
  split_ifs with h₁ h₂
  · exact sound_hold rfl hk
  · exact sound_hold rfl hk
  · split
    · exact Sound.of_eq (tryGrow_sound (by exact hk)) rfl rfl
    · exact Sound.of_eq (judge_sound (by exact hk) _ _) rfl rfl
    · exact sound_hold rfl hk

theorem maybeReprobe_sound (hk : 0 < g.k) : g.Sound s (g.maybeReprobe s) := by
  simp only [maybeReprobe]
  split_ifs with h₁ h₂ h₃ h₄ h₅
  · exact sound_hold rfl hk
  · exact sound_hold rfl hk
  · exact sound_hold rfl hk
  · exact sound_hold rfl hk
  · exact sound_hold rfl hk
  · have hlt := Nat.not_le.1 h₅
    refine ⟨rfl, hk.trans hlt, ?_⟩
    intro n hn
    obtain rfl : _ = n := Decision.spawnTo.inj hn
    exact ⟨hlt, by omega, by omega⟩

/-- **The governor never asks for more than it may**: a `spawnTo` is above the current target and
within the configured maximum and the useful number of connections. -/
theorem observe_sound (hk : 0 < g.k) : g.Sound s (g.observe s) := by
  unfold observe
  split
  · exact sound_of_ne_spawn rfl (lt_max_of_lt_right Nat.one_pos) fun _ h => nomatch h
  · simp only
    split_ifs with h₁ h₂
    · exact sound_hold rfl hk
    · exact sound_of_ne_spawn rfl (Nat.sub_pos_of_lt h₂.2) fun _ h => nomatch h
    · split
      · exact sound_hold rfl hk
      · exact Sound.of_eq (measure_sound (by exact hk)) rfl rfl
      · exact Sound.of_eq (measure_sound (by exact hk)) rfl rfl
      · exact Sound.of_eq (maybeReprobe_sound (by exact hk)) rfl rfl

end Governor

end SwiftLoad
