import SwiftLoad.Machine.Basic
import SwiftLoad.Task.Accounting
import SwiftLoad.Task.Governor
import SwiftLoad.Task.Worker

/-!
# Driving the workers

`drive` of `task/mod.rs`: spawn workers, sample them for the governor every tick, act on its
decisions, and wait for the work to drain.  The driver and its workers are tasks that interleave
freely, so the whole is a machine (`driveMachine`) whose events are the steps of the workers, the
user's cancellation and the driver's own steps.

A tick is three steps of the driver, since workers move while it reads their counters: sample and
decide (`tick`), carry out the decision (`act`), and the endgame check (`endgame`).

`Drive.Stepped` lists the outcomes of a step (`Drive.stepped`).
-/

namespace SwiftLoad

/-- Where the driver stands. -/
inductive DrivePc
  /-- In the `select!`: waiting for a worker to exit or for the ticker. -/
  | select
  /-- In the tick branch, with a decision to carry out. -/
  | acting (d : Decision)
  /-- In the tick branch, before the endgame check. -/
  | endgame
  /-- Past the loop.  Workers that still run are aborted when the driver returns. -/
  | leaving
  /-- Returned. -/
  | left
deriving DecidableEq, Repr

/-- The parameters of one run. -/
structure DriveCfg where
  ctx : WorkerCtx
  /-- Let the governor pick the connection count. -/
  adaptive : Bool
  /-- `live.initial_bytes`. -/
  initialBytes : ℕ
deriving DecidableEq, Repr

/-- The state of the driver, of its workers and of what they share. -/
structure Drive where
  shared : Shared
  /-- All workers ever spawned, in order. -/
  workers : List Worker
  /-- `retire_tokens`: whether the token of each worker is cancelled. -/
  retireTokens : List Bool
  cancelled : Bool
  gov : Governor
  lastErrors : ℕ
  /-- The first unrecoverable error. -/
  fatal : Option ErrorClass
  conns : ℕ
  peakConns : ℕ
  fetched : ℕ
  clock : Nanos
  pc : DrivePc
deriving DecidableEq, Repr

/-- What can happen during a run. -/
inductive DriveEvent
  | worker (i : ℕ) (e : WorkerEvent)
  /-- `set.join_next()` yields worker `i`. -/
  | join (i : ℕ)
  /-- The user cancels the download. -/
  | cancel
  | tick (now : Nanos) (backpressured : Bool)
  | act
  | endgame
  | leave
deriving DecidableEq

/-- The loop of `retire_down_to`. -/
def retireLoop : ℕ → List Bool → List Bool
  | 0, tokens => tokens
  | excess + 1, tokens =>
    match tokens.findIdx? (fun t => !t) with
    | some i => retireLoop excess (tokens.set i true)
    | none => tokens

/-- `retire_down_to`: stand workers down without killing them mid-range. -/
def retireDownTo (tokens : List Bool) (live target : ℕ) : List Bool :=
  retireLoop (live - max target 1) tokens

/-- The target of a decision that stands workers down. -/
def Decision.standDown : Decision → Option ℕ
  | .retireTo k | .releaseToken k | .backOff k _ => some k
  | _ => none

namespace Drive

/-- Spawn one worker. -/
def spawnWorker (s : Drive) : Drive :=
  { s with
    workers := s.workers ++ [Worker.new]
    retireTokens := s.retireTokens ++ [false]
    conns := s.conns + 1
    peakConns := max s.peakConns (s.conns + 1) }

/-- Spawn `n` workers. -/
def spawnWorkers : ℕ → Drive → Drive
  | 0, s => s
  | n + 1, s => spawnWorkers n s.spawnWorker

/-- The state in which `drive` enters its loop: `k0` workers over a seeded plan. -/
def start (plan : Plan) (govCfg : GovernorConfig) (k0 : ℕ) (now : Nanos) : Drive :=
  spawnWorkers k0
    { shared := ⟨plan, 0, []⟩
      workers := []
      retireTokens := []
      cancelled := false
      gov := .new govCfg k0 now
      lastErrors := 0
      fatal := none
      conns := 0
      peakConns := 0
      fetched := 0
      clock := now
      pc := .select }

/-- The bytes all workers have moved. -/
def workerBytes (s : Drive) : ℕ := (s.workers.map Worker.bytes).sum

/-- Stand workers down to `target`. -/
def retire (target : ℕ) (s : Drive) : Drive :=
  { s with retireTokens := retireDownTo s.retireTokens s.conns target }

/-- What the tick branch assembles for the governor. -/
def sample (cfg : DriveCfg) (now : Nanos) (backpressured : Bool) (s : Drive) : Sample where
  now := now
  bytesTotal := cfg.initialBytes + s.workerBytes
  conns := s.conns
  errorsSinceLast := (s.shared.errors - s.lastErrors) % 2 ^ 32
  rateLimited := none
  diskBackpressure := backpressured
  remainingBytes := s.shared.plan.outstanding
  probeToken := true

/-- The first half of the tick branch: sample and decide. -/
def onTick (cfg : DriveCfg) (now : Nanos) (backpressured : Bool) (s : Drive) : Drive :=
  let s' := { s with fetched := s.workerBytes, clock := now }
  if s.cancelled then { s' with pc := .leaving }
  else if cfg.adaptive then
    let r := s.gov.observe (s.sample cfg now backpressured)
    { s' with gov := r.1, lastErrors := s.shared.errors, pc := .acting r.2 }
  else s'

/-- The second half of the tick branch: carry out the decision. -/
def carryOut (d : Decision) (s : Drive) : Drive :=
  match d with
  | .spawnTo k =>
    -- only spawn what the remaining work can actually occupy
    spawnWorkers (min k s.shared.plan.usefulWorkers - s.conns) s
  | .retireTo k | .releaseToken k => s.retire k
  | .backOff conns _ => s.retire conns
  | .hold => s

/-- The branch for a worker that has exited. -/
def onJoin (i : ℕ) (w : Worker) (exit : WorkerExit) (s : Drive) : Drive :=
  let s := { s with
    workers := s.workers.set i { w with phase := .joined }
    conns := s.conns - 1 }
  let s := match exit with
    | .failed error => { s with fatal := s.fatal.orElse fun _ => some error, cancelled := true }
    | _ => s
  if s.workers.all fun w => decide (w.phase = .joined) then { s with pc := .leaving } else s

/-- One step of the driver or of a worker. -/
def step (cfg : DriveCfg) (s : Drive) : DriveEvent → Option Drive
  | .worker i e =>
    if s.pc = .left then none
    else
      s.workers[i]?.bind fun w =>
        (w.step cfg.ctx s.cancelled (s.retireTokens.getD i false) s.shared e).map fun r =>
          { s with shared := r.1, workers := s.workers.set i r.2 }
  | .join i =>
    if s.pc = .select then
      s.workers[i]?.bind fun w =>
        match w.phase with
        | .exited exit => some (s.onJoin i w exit)
        | _ => none
    else none
  | .cancel => some { s with cancelled := true }
  | .tick now backpressured =>
    if s.pc = .select ∧ s.clock ≤ now then some (s.onTick cfg now backpressured) else none
  | .act =>
    match s.pc with
    | .acting d => some { s.carryOut d with pc := .endgame }
    | _ => none
  | .endgame =>
    if s.pc = .endgame then
      some { (s.gov.endgameTarget s.shared.plan.outstanding).elim s (s.retire ·) with
        pc := .select }
    else none
  | .leave =>
    if s.pc = .leaving then some { s with fetched := s.workerBytes, pc := .left } else none

end Drive

/-- The driver and its workers as an event machine. -/
def driveMachine (cfg : DriveCfg) : Machine Drive DriveEvent := ⟨Drive.step cfg⟩

namespace Drive

variable {cfg : DriveCfg} {s s' : Drive} {n : ℕ}

/-! ### What the driver's steps change -/

theorem spawnWorkers_eq (n : ℕ) (s : Drive) :
    ∃ peak, spawnWorkers n s = { s with
      workers := s.workers ++ List.replicate n Worker.new
      retireTokens := s.retireTokens ++ List.replicate n false
      conns := s.conns + n
      peakConns := peak } := by
  induction n generalizing s with
  | zero => exact ⟨s.peakConns, by simp [spawnWorkers]⟩
  | succ n ih =>
    obtain ⟨peak, h⟩ := ih s.spawnWorker
    refine ⟨peak, ?_⟩
    rw [spawnWorkers, h]
    simp [spawnWorker, List.replicate_succ, Nat.add_comm, Nat.add_left_comm]

@[simp] theorem spawnWorkers_workers :
    (spawnWorkers n s).workers = s.workers ++ List.replicate n Worker.new := by
  obtain ⟨_, h⟩ := spawnWorkers_eq n s
  rw [h]

@[simp] theorem spawnWorkers_retireTokens :
    (spawnWorkers n s).retireTokens = s.retireTokens ++ List.replicate n false := by
  obtain ⟨_, h⟩ := spawnWorkers_eq n s
  rw [h]

@[simp] theorem spawnWorkers_conns : (spawnWorkers n s).conns = s.conns + n := by
  obtain ⟨_, h⟩ := spawnWorkers_eq n s
  rw [h]

@[simp] theorem spawnWorkers_shared : (spawnWorkers n s).shared = s.shared := by
  obtain ⟨_, h⟩ := spawnWorkers_eq n s
  rw [h]

@[simp] theorem spawnWorkers_gov : (spawnWorkers n s).gov = s.gov := by
  obtain ⟨_, h⟩ := spawnWorkers_eq n s
  rw [h]

@[simp] theorem spawnWorkers_cancelled : (spawnWorkers n s).cancelled = s.cancelled := by
  obtain ⟨_, h⟩ := spawnWorkers_eq n s
  rw [h]

@[simp] theorem spawnWorkers_fatal : (spawnWorkers n s).fatal = s.fatal := by
  obtain ⟨_, h⟩ := spawnWorkers_eq n s
  rw [h]

@[simp] theorem spawnWorkers_lastErrors : (spawnWorkers n s).lastErrors = s.lastErrors := by
  obtain ⟨_, h⟩ := spawnWorkers_eq n s
  rw [h]

@[simp] theorem spawnWorkers_clock : (spawnWorkers n s).clock = s.clock := by
  obtain ⟨_, h⟩ := spawnWorkers_eq n s
  rw [h]

@[simp] theorem spawnWorkers_pc : (spawnWorkers n s).pc = s.pc := by
  obtain ⟨_, h⟩ := spawnWorkers_eq n s
  rw [h]

theorem start_workers (plan : Plan) (govCfg : GovernorConfig) (k0 : ℕ) (now : Nanos) :
    (start plan govCfg k0 now).workers = List.replicate k0 Worker.new := by
  simp [start]

theorem start_token (plan : Plan) (govCfg : GovernorConfig) (k0 : ℕ) (now : Nanos) (i : ℕ) :
    (start plan govCfg k0 now).retireTokens.getD i false = false := by
  simp only [start, spawnWorkers_retireTokens, List.nil_append, List.getD_eq_getElem?_getD,
    List.getElem?_replicate]
  split_ifs <;> rfl

theorem step_worker {i : ℕ} {e : WorkerEvent} (h : s.step cfg (.worker i e) = some s') :
    ∃ w sh w', s.pc ≠ .left ∧ s.workers[i]? = some w ∧
      w.step cfg.ctx s.cancelled (s.retireTokens.getD i false) s.shared e = some (sh, w') ∧
      s' = { s with shared := sh, workers := s.workers.set i w' } := by
  simp only [step] at h
  split_ifs at h with hpc
  obtain ⟨w, hw, hr⟩ := Option.bind_eq_some_iff.1 h
  obtain ⟨⟨sh, w'⟩, hst, rfl⟩ := Option.map_eq_some_iff.1 hr
  exact ⟨w, sh, w', hpc, hw, hst, rfl⟩

theorem step_join {i : ℕ} (h : s.step cfg (.join i) = some s') :
    ∃ w exit, s.pc = .select ∧ s.workers[i]? = some w ∧ w.phase = .exited exit ∧
      s' = s.onJoin i w exit := by
  simp only [step] at h
  split_ifs at h with hpc
  obtain ⟨w, hw, hr⟩ := Option.bind_eq_some_iff.1 h
  split at hr
  · rename_i exit hphase
    exact ⟨w, exit, hpc, hw, hphase, (Option.some.inj hr).symm⟩
  · simp at hr

/-- What the driver keeps and changes when it takes notice of an exit. -/
theorem onJoin_spec (i : ℕ) (w : Worker) (exit : WorkerExit) (s : Drive) :
    (s.onJoin i w exit).shared = s.shared ∧
      (s.onJoin i w exit).workers = s.workers.set i { w with phase := .joined } ∧
      (s.onJoin i w exit).retireTokens = s.retireTokens ∧
      (s.onJoin i w exit).conns = s.conns - 1 ∧
      (s.onJoin i w exit).gov = s.gov ∧
      (s.onJoin i w exit).pc =
        if (s.workers.set i { w with phase := .joined }).all fun w => decide (w.phase = .joined)
        then .leaving else s.pc := by
  cases exit <;> unfold onJoin <;> dsimp only <;> split_ifs <;> exact ⟨rfl, rfl, rfl, rfl, rfl, rfl⟩

/-- Only a failure makes the driver cancel the others. -/
theorem onJoin_of_ne_failed {exit : WorkerExit} (h : ∀ error, exit ≠ .failed error) (i : ℕ)
    (w : Worker) (s : Drive) :
    (s.onJoin i w exit).cancelled = s.cancelled ∧ (s.onJoin i w exit).fatal = s.fatal := by
  cases exit with
  | failed error => exact absurd rfl (h error)
  | _ => unfold onJoin; dsimp only; split_ifs <;> exact ⟨rfl, rfl⟩

/-! ### The outcomes of a step -/

/-- The outcomes of a step. -/
inductive Stepped (cfg : DriveCfg) (s : Drive) : DriveEvent → Drive → Prop
  | moves (i : ℕ) (e : WorkerEvent) (w : Worker) (sh : Shared) (w' : Worker) (hpc : s.pc ≠ .left)
      (hw : s.workers[i]? = some w)
      (hst : w.step cfg.ctx s.cancelled (s.retireTokens.getD i false) s.shared e = some (sh, w')) :
      Stepped cfg s (.worker i e) { s with shared := sh, workers := s.workers.set i w' }
  | joins (i : ℕ) (w : Worker) (exit : WorkerExit) (hpc : s.pc = .select)
      (hw : s.workers[i]? = some w) (hphase : w.phase = .exited exit) :
      Stepped cfg s (.join i) (s.onJoin i w exit)
  | cancels : Stepped cfg s .cancel { s with cancelled := true }
  /-- A tick that finds the download cancelled. -/
  | quits (now : Nanos) (pressed : Bool) (hpc : s.pc = .select) (hcancelled : s.cancelled = true) :
      Stepped cfg s (.tick now pressed)
        { s with fetched := s.workerBytes, clock := now, pc := .leaving }
  | samples (now : Nanos) (pressed : Bool) (hpc : s.pc = .select) (hcancelled : s.cancelled = false)
      (hadaptive : cfg.adaptive = true) :
      Stepped cfg s (.tick now pressed) { s with
        fetched := s.workerBytes
        clock := now
        gov := (s.gov.observe (s.sample cfg now pressed)).1
        lastErrors := s.shared.errors
        pc := .acting (s.gov.observe (s.sample cfg now pressed)).2 }
  | ticks (now : Nanos) (pressed : Bool) (hpc : s.pc = .select) (hcancelled : s.cancelled = false)
      (hadaptive : cfg.adaptive = false) :
      Stepped cfg s (.tick now pressed) { s with fetched := s.workerBytes, clock := now }
  | spawns (n : ℕ) (hpc : s.pc = .acting (.spawnTo n)) :
      Stepped cfg s .act
        { spawnWorkers (min n s.shared.plan.usefulWorkers - s.conns) s with pc := .endgame }
  | retires (d : Decision) (target : ℕ) (hpc : s.pc = .acting d) (hd : d.standDown = some target) :
      Stepped cfg s .act { s.retire target with pc := .endgame }
  | holds (hpc : s.pc = .acting .hold) : Stepped cfg s .act { s with pc := .endgame }
  /-- There is little work left. -/
  | thins (target : ℕ) (hpc : s.pc = .endgame)
      (htarget : s.gov.endgameTarget s.shared.plan.outstanding = some target) :
      Stepped cfg s .endgame { s.retire target with pc := .select }
  | goesOn (hpc : s.pc = .endgame)
      (htarget : s.gov.endgameTarget s.shared.plan.outstanding = none) :
      Stepped cfg s .endgame { s with pc := .select }
  | leaves (hpc : s.pc = .leaving) :
      Stepped cfg s .leave { s with fetched := s.workerBytes, pc := .left }

/-- **There are no other outcomes.** -/
theorem stepped {e : DriveEvent} (h : s.step cfg e = some s') : s.Stepped cfg e s' := by
  cases e with
  | worker i e =>
    obtain ⟨w, sh, w', hpc, hw, hst, rfl⟩ := step_worker h
    exact .moves i e w sh w' hpc hw hst
  | join i =>
    obtain ⟨w, exit, hpc, hw, hphase, rfl⟩ := step_join h
    exact .joins i w exit hpc hw hphase
  | cancel =>
    obtain rfl := Option.some.inj h
    exact .cancels
  | tick now pressed =>
    simp only [step] at h
    split_ifs at h with hpc
    obtain rfl := Option.some.inj h
    unfold onTick
    dsimp only
    split_ifs with hcancelled hadaptive
    · exact .quits now pressed hpc.1 hcancelled
    · exact .samples now pressed hpc.1 (by simpa using hcancelled) hadaptive
    · exact .ticks now pressed hpc.1 (by simpa using hcancelled) (by simpa using hadaptive)
  | act =>
    simp only [step] at h
    split at h
    · rename_i d hpc
      obtain rfl := Option.some.inj h
      cases d with
      | spawnTo n => exact .spawns n hpc
      | hold => exact .holds hpc
      | retireTo k => exact .retires _ k hpc rfl
      | releaseToken k => exact .retires _ k hpc rfl
      | backOff k wait => exact .retires _ k hpc rfl
    · cases h
  | endgame =>
    simp only [step] at h
    split_ifs at h with hpc
    obtain rfl := Option.some.inj h
    cases htarget : s.gov.endgameTarget s.shared.plan.outstanding with
    | none => exact .goesOn hpc htarget
    | some target => exact .thins target hpc htarget
  | leave =>
    simp only [step] at h
    split_ifs at h with hpc
    obtain rfl := Option.some.inj h
    exact .leaves hpc

end Drive

end SwiftLoad
